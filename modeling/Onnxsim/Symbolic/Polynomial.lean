import Mathlib.Algebra.MvPolynomial.Funext
import Mathlib.Data.String.Basic
import Onnxsim.Lib.SparseSums

namespace Onnxsim.Symbolic.Expr

open List Lib.OrderedMaps
open Lib.SparseSums

/-- The sorted symbols of one product term, each as often as its power. -/
abbrev Monomial := List String

/-- A polynomial in dimension symbols. The code's `int64_t` coefficients are integers here. -/
structure SymExpr where
  terms : SortedMap Monomial Int
  deriving DecidableEq

namespace SymExpr

def zero : SymExpr := ⟨.empty⟩

def const (c : Int) : SymExpr := if c = 0 then zero else ⟨SortedMap.empty.insert [] c⟩

def symbol (name : String) : SymExpr := ⟨SortedMap.empty.insert [name] 1⟩

def isZero (e : SymExpr) : Bool := e.terms.entries.isEmpty

def isSymbolic (e : SymExpr) : Bool := e.terms.entries.any fun p => p.1 ≠ []

def toInt (e : SymExpr) : Int := coeff e.terms []

def add (a b : SymExpr) : SymExpr :=
  ⟨b.terms.entries.foldl (fun terms p => accumulate terms p.1 p.2) a.terms⟩

/-- `a :: as` merged with a list, once it is known how `as` merges. -/
def mergeCons (a : String) (as : Monomial) (mergeRest : Monomial → Monomial) : Monomial → Monomial
  | [] => a :: as
  | b :: bs => if a ≤ b then a :: mergeRest (b :: bs) else b :: mergeCons a as mergeRest bs

/-- `std::merge` of two sorted lists. -/
def mergeSymbols : Monomial → Monomial → Monomial
  | [], bs => bs
  | a :: as, bs => mergeCons a as (mergeSymbols as) bs

/-- One term of the left operand times every term of the right one. -/
def mulTerm (b : SymExpr) (terms : SortedMap Monomial Int) (p : Monomial × Int) :
    SortedMap Monomial Int :=
  b.terms.entries.foldl (fun terms q => accumulate terms (mergeSymbols p.1 q.1) (p.2 * q.2)) terms

def mul (a b : SymExpr) : SymExpr := ⟨a.terms.entries.foldl (mulTerm b) .empty⟩

def sub (a b : SymExpr) : SymExpr := add a (mul (const (-1)) b)

end SymExpr

open SymExpr

def powersOf (mono : Monomial) : SortedMap String Nat :=
  mono.foldl (fun c s => c.insert s ((c.find? s).getD 0 + 1)) .empty

def takePower (powers : SortedMap String Nat) (p : String × Nat) : Option (SortedMap String Nat) :=
  match powers.find? p.1 with
  | none => none
  | some k => if k < p.2 then none else some (powers.insert p.1 (k - p.2))

def termOf (powers : SortedMap String Nat) (c : Int) : SymExpr :=
  powers.entries.foldl (fun t p => (List.replicate p.2 p.1).foldl (fun t s => mul t (symbol s)) t)
    (const c)

def divideTerm (denPowers : SortedMap String Nat) (denCoeff : Int) (quotient : SymExpr)
    (p : Monomial × Int) : Option SymExpr :=
  if p.2.tmod denCoeff ≠ 0 then none
  else do
    let powers ← denPowers.entries.foldlM takePower (powersOf p.1)
    some (add quotient (termOf powers (p.2.tdiv denCoeff)))

/-- `num / den` where `den` is a single term that divides every term of `num`. -/
def tryExactDivide (num den : SymExpr) : Option SymExpr :=
  match den.terms.entries with
  | [(denMono, denCoeff)] =>
    if denCoeff = 0 then none
    else num.terms.entries.foldlM (divideTerm (powersOf denMono) denCoeff) zero
  | _ => none

def tryEqual (a b : SymExpr) : Option Bool :=
  if isZero (sub a b) then some true
  else if isSymbolic (sub a b) then none
  else some false

/-- The representation invariant. -/
structure Canonical (e : SymExpr) : Prop where
  noZero : NoZero e.terms
  sorted : ∀ p ∈ e.terms.entries, p.1.Pairwise (· ≤ ·)

theorem canonical_zero : Canonical zero := ⟨by simp [NoZero, zero, SortedMap.empty], by
  simp [zero, SortedMap.empty]⟩

theorem canonical_const (c : Int) : Canonical (const c) := by
  rw [const]
  split
  · exact canonical_zero
  · next h =>
    constructor
    · intro p hp
      rw [mem_singleton.mp hp]
      exact h
    · intro p hp
      rw [mem_singleton.mp hp]
      exact List.Pairwise.nil

theorem canonical_symbol (name : String) : Canonical (symbol name) := by
  constructor
  · intro p hp
    rw [mem_singleton.mp hp]
    exact one_ne_zero
  · intro p hp
    rw [mem_singleton.mp hp]
    exact pairwise_singleton _ _

variable {terms : SortedMap Monomial Int} {a b : SymExpr}

theorem Canonical.accumulated (h : Canonical ⟨terms⟩) {mono : Monomial} (hm : mono.Pairwise (· ≤ ·)) (c : Int) :
    Canonical ⟨accumulate terms mono c⟩ := by
  refine ⟨h.noZero.accumulate mono c, fun p hp => ?_⟩
  rcases mem_accumulate hp with hp | ⟨hk, -⟩
  · exact h.sorted p hp
  · exact hk ▸ hm

theorem Canonical.foldl {ι : Type} {key : ι → Monomial} {val : ι → Int} {l : List ι}
    (hl : ∀ p ∈ l, (key p).Pairwise (· ≤ ·)) (h : Canonical ⟨terms⟩) :
    Canonical ⟨l.foldl (fun terms p => accumulate terms (key p) (val p)) terms⟩ := by
  induction l generalizing terms with
  | nil => exact h
  | cons p l ih =>
    apply ih fun q hq => hl q (mem_cons_of_mem _ hq)
    exact h.accumulated (hl p mem_cons_self) (val p)

theorem Canonical.add (ha : Canonical a) (hb : Canonical b) : Canonical (a.add b) := Canonical.foldl hb.sorted ha

theorem mergeSymbols_eq (a b : Monomial) : mergeSymbols a b = a.merge b fun x y => x ≤ y := by
  induction a generalizing b with
  | nil => simp [mergeSymbols]
  | cons x a ih =>
    have hcons : ∀ b, mergeCons x a (mergeSymbols a) b = (x :: a).merge b fun x y => x ≤ y := by
      intro b
      induction b with
      | nil => simp [mergeCons]
      | cons y b ihb =>
        rw [mergeCons, List.merge, ih, ihb]
        simp
    exact hcons b

theorem sorted_mergeSymbols {a b : Monomial} (ha : a.Pairwise (· ≤ ·)) (hb : b.Pairwise (· ≤ ·)) :
    (mergeSymbols a b).Pairwise (· ≤ ·) := by
  have htrans : ∀ x y z : String, decide (x ≤ y) = true → decide (y ≤ z) = true →
      decide (x ≤ z) = true := by
    intro x y z hxy hyz
    simpa using le_trans (by simpa using hxy) (by simpa using hyz)
  have htotal : ∀ x y : String, (decide (x ≤ y) || decide (y ≤ x)) = true := by
    intro x y
    simpa using le_total x y
  have h := pairwise_merge htrans htotal a b (by simpa using ha) (by simpa using hb)
  simpa [mergeSymbols_eq] using h

theorem Canonical.mul (ha : Canonical a) (hb : Canonical b) : Canonical (a.mul b) := by
  have hfold : ∀ (l : List (Monomial × Int)) (terms : SortedMap Monomial Int),
      (∀ p ∈ l, p.1.Pairwise (· ≤ ·)) → Canonical ⟨terms⟩ →
      Canonical ⟨l.foldl (mulTerm b) terms⟩ := by
    intro l
    induction l with
    | nil => exact fun _ _ h => h
    | cons p l ih =>
      intro terms hl h
      apply ih _ fun q hq => hl q (mem_cons_of_mem _ hq)
      apply Canonical.foldl _ h
      exact fun q hq => sorted_mergeSymbols (hl p mem_cons_self) (hb.sorted q hq)
  exact hfold _ _ ha.sorted canonical_zero

theorem Canonical.sub (ha : Canonical a) (hb : Canonical b) : Canonical (a.sub b) := ha.add ((canonical_const (-1)).mul hb)

/-- The values that the constructors and operators can build. -/
inductive Reachable : SymExpr → Prop
  | zero : Reachable zero
  | const (c : Int) : Reachable (const c)
  | symbol (name : String) : Reachable (symbol name)
  | add {a b : SymExpr} (ha : Reachable a) (hb : Reachable b) : Reachable (a.add b)
  | sub {a b : SymExpr} (ha : Reachable a) (hb : Reachable b) : Reachable (a.sub b)
  | mul {a b : SymExpr} (ha : Reachable a) (hb : Reachable b) : Reachable (a.mul b)

theorem Reachable.canonical {e : SymExpr} (h : Reachable e) : Canonical e := by
  induction h with
  | zero => exact canonical_zero
  | const c => exact canonical_const c
  | symbol name => exact canonical_symbol name
  | add _ _ iha ihb => exact iha.add ihb
  | sub _ _ iha ihb => exact iha.sub ihb
  | mul _ _ iha ihb => exact iha.mul ihb

end Onnxsim.Symbolic.Expr

namespace Onnxsim.Symbolic.Polynomial

open List Lib.OrderedMaps
open Lib.SparseSums
open Symbolic.Expr
open Symbolic.Expr.SymExpr

section

variable {A : Type} [CommRing A] (f : String → A)

/-- One term, with the symbols read through `f`. -/
def termValue (mono : Monomial) (c : Int) : A := (c : A) * (mono.map f).prod

/-- A polynomial read in a ring, with the symbols read through `f`. -/
def value (e : SymExpr) : A := total (termValue f) e.terms

theorem termValue_zero (mono : Monomial) : termValue f mono 0 = 0 := by simp [termValue]

theorem termValue_add (mono : Monomial) (a b : Int) :
    termValue f mono (a + b) = termValue f mono a + termValue f mono b := by
  simp [termValue, add_mul]

theorem termValue_merge (m₁ m₂ : Monomial) (c₁ c₂ : Int) :
    termValue f (mergeSymbols m₁ m₂) (c₁ * c₂) = termValue f m₁ c₁ * termValue f m₂ c₂ := by
  have hperm : (mergeSymbols m₁ m₂).Perm (m₁ ++ m₂) := by
    rw [mergeSymbols_eq]
    exact merge_perm_append _
  have hprod : ((mergeSymbols m₁ m₂).map f).prod = (m₁.map f).prod * (m₂.map f).prod := by
    rw [(hperm.map f).prod_eq, map_append, prod_append]
  rw [termValue, termValue, termValue, hprod, Int.cast_mul]
  ring

@[simp] theorem value_zero : value f zero = 0 := rfl

@[simp] theorem value_const (c : Int) : value f (const c) = c := by
  rw [const]
  split
  · next h => simp [h]
  · simp [value, total, SortedMap.insert, SortedMap.empty, insertList, termValue]

@[simp] theorem value_symbol (name : String) : value f (symbol name) = f name := by
  simp [value, total, symbol, SortedMap.insert, SortedMap.empty, insertList, termValue]

@[simp] theorem value_add (a b : SymExpr) : value f (a.add b) = value f a + value f b :=
  total_foldl (termValue f) (termValue_zero f) (termValue_add f) Prod.fst Prod.snd _ _

theorem total_mulTerm (b : SymExpr) (terms : SortedMap Monomial Int) (p : Monomial × Int) :
    total (termValue f) (mulTerm b terms p) =
      total (termValue f) terms + termValue f p.1 p.2 * value f b := by
  rw [mulTerm, total_foldl (termValue f) (termValue_zero f) (termValue_add f)
    (fun q : Monomial × Int => mergeSymbols p.1 q.1) (fun q => p.2 * q.2)]
  simp only [termValue_merge, value, total]
  rw [sum_map_mul_left]

@[simp] theorem value_mul (a b : SymExpr) : value f (a.mul b) = value f a * value f b := by
  have hfold : ∀ (l : List (Monomial × Int)) (terms : SortedMap Monomial Int),
      total (termValue f) (l.foldl (mulTerm b) terms) =
        total (termValue f) terms + (l.map fun p => termValue f p.1 p.2).sum * value f b := by
    intro l
    induction l with
    | nil => simp
    | cons p l ih =>
      intro terms
      rw [foldl_cons, ih, total_mulTerm, map_cons, sum_cons, add_mul, add_assoc]
  have h := hfold a.terms.entries .empty
  rwa [total_empty, zero_add] at h

@[simp] theorem value_sub (a b : SymExpr) : value f (a.sub b) = value f a - value f b := by
  rw [sub, value_add, value_mul, value_const, Int.cast_neg, Int.cast_one, neg_one_mul,
    ← sub_eq_add_neg]

theorem map_value {B : Type} [CommRing B] (g : A →+* B) (e : SymExpr) :
    g (value f e) = value (fun s => g (f s)) e := by
  simp only [value, total, map_list_sum, List.map_map]
  congr 1
  apply map_congr_left
  intro p _
  simp [termValue, map_list_prod, List.map_map, Function.comp_def]

end

/-- The value under an assignment of integers to the symbols. -/
def eval (env : String → Int) (e : SymExpr) : Int := value env e

open MvPolynomial

noncomputable def toPoly (e : SymExpr) : MvPolynomial String ℤ := value X e

theorem eval_toPoly (env : String → Int) (e : SymExpr) :
    MvPolynomial.eval env (toPoly e) = eval env e := by
  rw [toPoly, map_value, eval]
  simp only [eval_X]

noncomputable def exponents (mono : Monomial) : String →₀ ℕ := Multiset.toFinsupp (mono : Multiset String)

theorem termValue_eq_monomial (mono : Monomial) (c : Int) :
    termValue X mono c = monomial (exponents mono) c := by
  have hprod : (mono.map (X (R := ℤ))).prod = monomial (exponents mono) 1 := by
    induction mono with
    | nil => simp [exponents]
    | cons s mono ih =>
      have hcons : exponents (s :: mono) = Finsupp.single s 1 + exponents mono := by
        rw [exponents, ← Multiset.cons_coe, ← Multiset.singleton_add, map_add,
          Multiset.toFinsupp_singleton, exponents]
      rw [map_cons, prod_cons, ih, hcons, X, monomial_mul, one_mul]
  rw [termValue, hprod, ← eq_intCast (C : ℤ →+* MvPolynomial String ℤ) c, C_mul_monomial, mul_one]

theorem exponents_inj {a b : Monomial} (ha : a.Pairwise (· ≤ ·)) (hb : b.Pairwise (· ≤ ·))
    (h : exponents a = exponents b) : a = b := by
  have hperm : a.Perm b := Multiset.coe_eq_coe.mp (Multiset.toFinsupp.injective h)
  exact hperm.eq_of_pairwise (fun x y _ _ hxy hyx => le_antisymm hxy hyx) ha hb

theorem coeff_toPoly {e : SymExpr} (h : Canonical e) {mono : Monomial}
    (hm : mono.Pairwise (· ≤ ·)) :
    (toPoly e).coeff (exponents mono) = Lib.SparseSums.coeff e.terms mono := by
  rw [toPoly, value, total, ← total_pick, total]
  rw [← lcoeff_apply, map_list_sum, List.map_map]
  congr 1
  apply map_congr_left
  intro p hp
  rw [Function.comp_apply, termValue_eq_monomial, lcoeff_apply, coeff_monomial]
  by_cases he : p.1 = mono
  · rw [if_pos he, if_pos (congrArg exponents he)]
  · rw [if_neg he, if_neg fun hx => he (exponents_inj (h.sorted p hp) hm hx)]

end Onnxsim.Symbolic.Polynomial
