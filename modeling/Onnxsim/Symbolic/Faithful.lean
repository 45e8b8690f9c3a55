import Onnxsim.Symbolic.Polynomial

namespace Onnxsim.Symbolic.Division

open List Option Lib.OrderedMaps
open Lib.SparseSums
open Symbolic.Expr
open Symbolic.Expr.SymExpr
open Symbolic.Polynomial

section

/-- The symbols that a table of powers stands for, each as often as its power. -/
def bag (powers : SortedMap String Nat) : Multiset String :=
  total (fun s k => Multiset.replicate k s) powers

theorem count_bag (powers : SortedMap String Nat) (s : String) :
    (bag powers).count s = coeff powers s := by
  rw [← total_pick, bag, total, total, ← Multiset.coe_countAddMonoidHom, map_list_sum, List.map_map]
  congr 1
  apply map_congr_left
  intro p _
  rw [Function.comp_apply, Multiset.coe_countAddMonoidHom, Multiset.count_replicate]

theorem bag_insert (powers : SortedMap String Nat) (s : String) {j k : Nat}
    (h : coeff powers s + j = k) :
    bag (powers.insert s k) = bag powers + Multiset.replicate j s := by
  have hpart : part (fun s k => Multiset.replicate k s) powers s =
      Multiset.replicate (coeff powers s) s := by
    rw [part, coeff]
    cases powers.find? s <;> rfl
  rw [bag, bag, total_insert, total_erase _ powers s, hpart, ← h, Multiset.replicate_add]
  exact add_right_comm _ _ _

theorem bag_powersOf (mono : Monomial) : bag (powersOf mono) = mono := by
  induction mono using List.reverseRecOn with
  | nil => rfl
  | append_singleton mono s ih =>
    rw [powersOf, foldl_append]
    have h := bag_insert (powersOf mono) s (j := 1) rfl
    rw [ih] at h
    exact h

theorem powersOf_pos (mono : Monomial) : ∀ p ∈ (powersOf mono).entries, 0 < p.2 := by
  induction mono using List.reverseRecOn with
  | nil => simp [powersOf, SortedMap.empty]
  | append_singleton mono s ih =>
    rw [powersOf, foldl_append]
    intro p hp
    rcases mem_insertList hp with rfl | hp
    · exact Nat.succ_pos _
    · exact ih p hp

variable {powers rest : SortedMap String Nat} {p : String × Nat} {l : List (String × Nat)}

theorem bag_takePower (h : takePower powers p = some rest) : bag powers = bag rest + Multiset.replicate p.2 p.1 := by
  rw [takePower] at h
  split at h
  · cases h
  · next k hk =>
    split at h
    · cases h
    · next hle =>
      cases h
      have hcoeff : coeff (powers.insert p.1 (k - p.2)) p.1 + p.2 = k := by
        rw [coeff, SortedMap.find?_insert, if_pos rfl]
        exact Nat.sub_add_cancel (not_lt.mp hle)
      have hback : (powers.insert p.1 (k - p.2)).insert p.1 k = powers := by
        apply SortedMap.ext_find?
        intro j
        rw [SortedMap.find?_insert, SortedMap.find?_insert]
        by_cases hj : j = p.1
        · rw [if_pos hj, hj, hk]
        · rw [if_neg hj, if_neg hj]
      have hins := bag_insert (powers.insert p.1 (k - p.2)) p.1 hcoeff
      rwa [hback] at hins

theorem takePower_isSome (hpos : 0 < p.2) (h : Multiset.replicate p.2 p.1 ≤ bag powers) :
    ∃ rest, takePower powers p = some rest := by
  have hle : p.2 ≤ coeff powers p.1 := by
    rw [← count_bag]
    exact Multiset.le_count_iff_replicate_le.mpr h
  rw [coeff] at hle
  rw [takePower]
  cases hk : powers.find? p.1 with
  | none =>
    rw [hk] at hle
    exact absurd hpos (not_lt.mpr hle)
  | some k =>
    rw [hk] at hle
    exact ⟨_, if_neg (not_lt.mpr hle)⟩

def bagOf (l : List (String × Nat)) : Multiset String := (l.map fun p => Multiset.replicate p.2 p.1).sum

theorem bag_takePowers (h : l.foldlM takePower powers = some rest) : bag powers = bag rest + bagOf l := by
  induction l generalizing powers with
  | nil =>
    cases h
    exact (add_zero _).symm
  | cons p l ih =>
    obtain ⟨mid, hmid, hrest⟩ := bind_eq_some_iff.mp h
    rw [bag_takePower hmid, ih hrest, bagOf, bagOf, map_cons, sum_cons]
    exact (add_assoc _ _ _).trans (congrArg _ (add_comm _ _))

theorem takePowers_isSome (hpos : ∀ p ∈ l, 0 < p.2) (h : bagOf l ≤ bag powers) :
    ∃ rest, l.foldlM takePower powers = some rest := by
  induction l generalizing powers with
  | nil => exact ⟨powers, rfl⟩
  | cons p l ih =>
    rw [bagOf, map_cons, sum_cons] at h
    obtain ⟨mid, hmid⟩ := takePower_isSome (hpos p mem_cons_self)
      ((Multiset.le_add_right _ _).trans h)
    rw [bag_takePower hmid, add_comm (bag mid)] at h
    obtain ⟨rest, hrest⟩ := ih (fun q hq => hpos q (mem_cons_of_mem _ hq))
      (le_of_add_le_add_left h)
    exact ⟨rest, bind_eq_some_iff.mpr ⟨mid, hmid, hrest⟩⟩

variable {A : Type} [CommRing A] (f : String → A)

theorem value_mulSymbols (l : List String) (t : SymExpr) :
    value f (l.foldl (fun t s => mul t (symbol s)) t) = value f t * (l.map f).prod := by
  induction l generalizing t with
  | nil => simp
  | cons s l ih => rw [foldl_cons, ih, value_mul, value_symbol, map_cons, prod_cons,
      mul_assoc]

theorem value_termOf (powers : SortedMap String Nat) (c : Int) :
    value f (termOf powers c) = c * ((bag powers).map f).prod := by
  have hfold : ∀ (l : List (String × Nat)) (t : SymExpr),
      value f (l.foldl (fun t p => (List.replicate p.2 p.1).foldl (fun t s => mul t (symbol s)) t) t) =
        value f t * ((bagOf l).map f).prod := by
    intro l
    induction l with
    | nil => simp [bagOf]
    | cons p l ih =>
      intro t
      have hsum : bagOf (p :: l) = Multiset.replicate p.2 p.1 + bagOf l := by
        rw [bagOf, map_cons, sum_cons]
        rfl
      rw [foldl_cons, ih, value_mulSymbols, hsum, Multiset.map_add, Multiset.prod_add, mul_assoc,
        ← Multiset.coe_replicate, Multiset.map_coe, Multiset.prod_coe]
  rw [termOf, hfold, value_const]
  rfl

theorem canonical_termOf (powers : SortedMap String Nat) (c : Int) : Canonical (termOf powers c) := by
  have hsymbols : ∀ (l : List String) (t : SymExpr), Canonical t →
      Canonical (l.foldl (fun t s => mul t (symbol s)) t) := by
    intro l
    induction l with
    | nil => exact fun _ h => h
    | cons s l ih => exact fun t h => ih _ (h.mul (canonical_symbol s))
  have hfold : ∀ (l : List (String × Nat)) (t : SymExpr), Canonical t →
      Canonical (l.foldl
        (fun t p => (List.replicate p.2 p.1).foldl (fun t s => mul t (symbol s)) t) t) := by
    intro l
    induction l with
    | nil => exact fun _ h => h
    | cons p l ih => exact fun t h => ih _ (hsymbols _ t h)
  exact hfold _ _ (canonical_const c)

end

variable {denMono : Monomial} {denCoeff : Int} {q' q : SymExpr} {p : Monomial × Int} {l : List (Monomial × Int)}

theorem divideTerm_spec {A : Type} [CommRing A] (f : String → A)
    (h : divideTerm (powersOf denMono) denCoeff q p = some q') :
    value f q' * termValue f denMono denCoeff =
      value f q * termValue f denMono denCoeff + termValue f p.1 p.2 := by
  rw [divideTerm] at h
  split at h
  · cases h
  · next hdvd =>
    obtain ⟨rest, hrest, hq⟩ := bind_eq_some_iff.mp h
    cases hq
    have hbag : bag (powersOf p.1) = bag rest + bag (powersOf denMono) := bag_takePowers hrest
    rw [bag_powersOf, bag_powersOf] at hbag
    have hprod : (p.1.map f).prod = ((bag rest).map f).prod * (denMono.map f).prod := by
      rw [← Multiset.prod_coe, ← Multiset.map_coe, hbag, Multiset.map_add, Multiset.prod_add,
        Multiset.map_coe, Multiset.prod_coe]
    have hcoeff : (p.2 : A) = (p.2.tdiv denCoeff : A) * denCoeff := by
      rw [← Int.cast_mul, Int.tdiv_mul_cancel (Int.dvd_of_tmod_eq_zero (not_not.mp hdvd))]
    rw [value_add, value_termOf, termValue, termValue, hprod, hcoeff]
    ring

theorem divideTerm_canonical (hq : Canonical q) (h : divideTerm (powersOf denMono) denCoeff q p = some q') :
    Canonical q' := by
  rw [divideTerm] at h
  split at h
  · cases h
  · obtain ⟨rest, -, hadd⟩ := bind_eq_some_iff.mp h
    cases hadd
    exact hq.add (canonical_termOf _ _)

theorem divideTerm_isSome (q : SymExpr) (hc : denCoeff ∣ p.2) (hm : (denMono : Multiset String) ≤ p.1) :
    ∃ q', divideTerm (powersOf denMono) denCoeff q p = some q' := by
  have hle : bagOf (powersOf denMono).entries ≤ bag (powersOf p.1) := by
    rw [bag_powersOf]
    exact (bag_powersOf denMono).trans_le hm
  obtain ⟨rest, hrest⟩ := takePowers_isSome (powersOf_pos denMono) hle
  rw [divideTerm, if_neg (not_not.mpr (Int.tmod_eq_zero_of_dvd hc)), hrest]
  exact ⟨_, rfl⟩

theorem divideTerms_spec {A : Type} [CommRing A] (f : String → A)
    (h : l.foldlM (divideTerm (powersOf denMono) denCoeff) q = some q') :
    value f q' * termValue f denMono denCoeff =
      value f q * termValue f denMono denCoeff + (l.map fun p => termValue f p.1 p.2).sum := by
  induction l generalizing q with
  | nil =>
    cases h
    exact (add_zero _).symm
  | cons p l ih =>
    obtain ⟨mid, hmid, hrest⟩ := bind_eq_some_iff.mp h
    rw [ih hrest, divideTerm_spec f hmid, map_cons, sum_cons, add_assoc]

theorem divideTerms_canonical (hq : Canonical q) (h : l.foldlM (divideTerm (powersOf denMono) denCoeff) q = some q') :
    Canonical q' := by
  induction l generalizing q with
  | nil =>
    cases h
    exact hq
  | cons p l ih =>
    obtain ⟨mid, hmid, hrest⟩ := bind_eq_some_iff.mp h
    exact ih (divideTerm_canonical hq hmid) hrest

theorem divideTerms_isSome (hl : ∀ p ∈ l, denCoeff ∣ p.2 ∧ (denMono : Multiset String) ≤ p.1) (q : SymExpr) :
    ∃ q', l.foldlM (divideTerm (powersOf denMono) denCoeff) q = some q' := by
  induction l generalizing q with
  | nil => exact ⟨q, rfl⟩
  | cons p l ih =>
    obtain ⟨hc, hm⟩ := hl p mem_cons_self
    obtain ⟨mid, hmid⟩ := divideTerm_isSome q hc hm
    obtain ⟨q', hq'⟩ := ih (fun r hr => hl r (mem_cons_of_mem _ hr)) mid
    exact ⟨q', bind_eq_some_iff.mpr ⟨mid, hmid, hq'⟩⟩

theorem terms_dvd {num : SymExpr} (hnum : Canonical num)
    (h : termValue MvPolynomial.X denMono denCoeff ∣ toPoly num) :
    ∀ p ∈ num.terms.entries, denCoeff ∣ p.2 ∧ (denMono : Multiset String) ≤ p.1 := by
  obtain ⟨r, hr⟩ := h
  intro p hp
  obtain ⟨hcoeff, hne⟩ := (mem_entries_iff hnum.noZero).mp hp
  have hpoly := coeff_toPoly hnum (hnum.sorted p hp)
  rw [hr, termValue_eq_monomial, MvPolynomial.coeff_monomial_mul', hcoeff] at hpoly
  split at hpoly
  · next hle =>
    refine ⟨⟨_, hpoly.symm⟩, ?_⟩
    rw [Multiset.le_iff_count]
    intro s
    have hs := hle s
    rwa [exponents, exponents, Multiset.toFinsupp_apply, Multiset.toFinsupp_apply] at hs
  · exact absurd hpoly.symm hne

end Onnxsim.Symbolic.Division

namespace Onnxsim.Symbolic.Faithful

open List Lib.OrderedMaps
open Lib.SparseSums
open Symbolic.Expr
open Symbolic.Expr.SymExpr
open Symbolic.Polynomial
open Division

/-- Distinct monomials, each with sorted symbols at positive powers, none with coefficient zero. -/
def RepresentationInvariant (e : SymExpr) : Prop :=
  e.terms.keys.Nodup ∧ ∀ p ∈ e.terms.entries,
    p.1.Pairwise (· ≤ ·) ∧ (∀ q ∈ (powersOf p.1).entries, 0 < q.2) ∧ p.2 ≠ 0

variable {e a b : SymExpr}

theorem Canonical.invariant (h : Canonical e) : RepresentationInvariant e :=
  ⟨e.terms.keys_nodup, fun p hp => ⟨h.sorted p hp, powersOf_pos p.1, h.noZero p hp⟩⟩

theorem coeff_of_unsorted (h : Canonical e) {mono : Monomial} (hm : ¬ mono.Pairwise (· ≤ ·)) : coeff e.terms mono = 0 := by
  by_contra hne
  exact hm (h.sorted _ ((mem_entries_iff h.noZero).mpr ⟨rfl, hne⟩))

theorem toPoly_injective (ha : Canonical a) (hb : Canonical b) (h : toPoly a = toPoly b) : a = b := by
  have hterms : a.terms = b.terms := by
    apply ext_coeff ha.noZero hb.noZero
    intro mono
    by_cases hm : mono.Pairwise (· ≤ ·)
    · rw [← coeff_toPoly ha hm, ← coeff_toPoly hb hm, h]
    · rw [coeff_of_unsorted ha hm, coeff_of_unsorted hb hm]
  cases a
  cases b
  exact congrArg SymExpr.mk hterms

theorem eq_iff_eval (ha : Canonical a) (hb : Canonical b) : a = b ↔ ∀ env, eval env a = eval env b := by
  constructor
  · rintro rfl _
    rfl
  · intro h
    apply toPoly_injective ha hb
    apply MvPolynomial.funext
    intro env
    rw [eval_toPoly, eval_toPoly, h env]

theorem isZero_iff (e : SymExpr) : isZero e = true ↔ e = zero := by
  constructor
  · intro h
    cases e
    exact congrArg SymExpr.mk (SortedMap.ext_entries (List.isEmpty_iff.mp h))
  · rintro rfl
    rfl

theorem tryEqual_eq_true_iff (ha : Canonical a) (hb : Canonical b) :
    tryEqual a b = some true ↔ ∀ env, eval env a = eval env b := by
  have hzero : tryEqual a b = some true ↔ isZero (sub a b) = true := by
    rw [tryEqual]
    split
    · next h => simp [h]
    · next h => split <;> simp [h]
  rw [hzero, isZero_iff, eq_iff_eval (ha.sub hb) canonical_zero]
  apply forall_congr'
  intro env
  rw [eval, eval, eval, value_sub, value_zero]
  exact sub_eq_zero

variable {num den : SymExpr} {denMono : Monomial} {denCoeff : Int}

theorem toPoly_of_single (h : den.terms.entries = [(denMono, denCoeff)]) {A : Type} [CommRing A]
    (f : String → A) : value f den = termValue f denMono denCoeff := by
  rw [value, total, h, map_singleton, sum_singleton]

theorem tryExactDivide_of_single (hden : Canonical den)
    (h : den.terms.entries = [(denMono, denCoeff)]) :
    tryExactDivide num den =
      num.terms.entries.foldlM (divideTerm (powersOf denMono) denCoeff) zero := by
  have hne : denCoeff ≠ 0 := hden.noZero _ (h ▸ mem_cons_self)
  rw [tryExactDivide, h]
  exact if_neg hne

theorem mul_of_tryExactDivide (hnum : Canonical num) (hden : Canonical den)
    (h : den.terms.entries = [(denMono, denCoeff)]) {q : SymExpr}
    (hq : tryExactDivide num den = some q) : q.mul den = num := by
  rw [tryExactDivide_of_single hden h] at hq
  apply toPoly_injective ((divideTerms_canonical canonical_zero hq).mul hden) hnum
  have hspec := divideTerms_spec (MvPolynomial.X (R := ℤ)) hq
  rw [value_zero, zero_mul, zero_add] at hspec
  rw [toPoly, value_mul, toPoly_of_single h]
  exact hspec

theorem tryExactDivide_iff_dvd (hnum : Canonical num) (hden : Canonical den)
    (h : den.terms.entries = [(denMono, denCoeff)]) :
    (∃ q, tryExactDivide num den = some q) ↔ toPoly den ∣ toPoly num := by
  constructor
  · rintro ⟨q, hq⟩
    rw [← mul_of_tryExactDivide hnum hden h hq, toPoly, toPoly, value_mul]
    exact dvd_mul_left _ _
  · intro hdvd
    rw [toPoly, toPoly_of_single h] at hdvd
    rw [tryExactDivide_of_single hden h]
    exact divideTerms_isSome (terms_dvd hnum hdvd) zero

/-- `SymExpr` is the ring of integer polynomials in its symbols, kept in a form that is unique. -/
theorem symExpr_faithful :
    (∀ e, Reachable e → RepresentationInvariant e) ∧
    (∀ env, (∀ c, eval env (const c) = c) ∧ (∀ s, eval env (symbol s) = env s) ∧
      ∀ a b, eval env (a.add b) = eval env a + eval env b ∧
        eval env (a.sub b) = eval env a - eval env b ∧
        eval env (a.mul b) = eval env a * eval env b) ∧
    (∀ a b, Reachable a → Reachable b →
      (a = b ↔ ∀ env, eval env a = eval env b) ∧
      (tryEqual a b = some true ↔ ∀ env, eval env a = eval env b)) ∧
    (∀ num den, Reachable num → Reachable den → den.terms.entries.length = 1 →
      ((∃ q, tryExactDivide num den = some q) ↔ toPoly den ∣ toPoly num) ∧
      ∀ q, tryExactDivide num den = some q → q.mul den = num) := by
  refine ⟨fun e he => Canonical.invariant he.canonical, fun env => ⟨fun c => ?_, fun s => ?_, fun a b => ?_⟩,
    fun a b ha hb => ⟨eq_iff_eval ha.canonical hb.canonical,
      tryEqual_eq_true_iff ha.canonical hb.canonical⟩, fun num den hnum hden hlen => ?_⟩
  · exact value_const env c
  · exact value_symbol env s
  · exact ⟨value_add env a b, value_sub env a b, value_mul env a b⟩
  · obtain ⟨⟨denMono, denCoeff⟩, hsingle⟩ := length_eq_one_iff.mp hlen
    exact ⟨tryExactDivide_iff_dvd hnum.canonical hden.canonical hsingle,
      fun q hq => mul_of_tryExactDivide hnum.canonical hden.canonical hsingle hq⟩

/-- `131072*batch` over `131072` is `batch`. -/
theorem batch_divides :
    (const 131072).terms.entries.length = 1 ∧
      tryExactDivide ((const 131072).mul (symbol "batch")) (const 131072) = some (symbol "batch") ∧
      (symbol "batch").mul (const 131072) = (const 131072).mul (symbol "batch") := by
  have hq : tryExactDivide ((const 131072).mul (symbol "batch")) (const 131072) =
      some (symbol "batch") := by decide
  exact ⟨rfl, hq, (symExpr_faithful.2.2.2 _ _ (.mul (.const _) (.symbol _)) (.const _) rfl).2 _ hq⟩

/-- Exact division undoes multiplication. -/
theorem tryExactDivide_mul (hnum : Reachable num) (hden : Reachable den) (hlen : den.terms.entries.length = 1) :
    tryExactDivide (num.mul den) den = some num := by
  obtain ⟨⟨denMono, denCoeff⟩, hsingle⟩ := length_eq_one_iff.mp hlen
  have hmul := hnum.canonical.mul hden.canonical
  have hpoly (a : SymExpr) : toPoly (a.mul den) = toPoly a * toPoly den := value_mul _ _ _
  obtain ⟨q, hq⟩ := (tryExactDivide_iff_dvd hmul hden.canonical hsingle).mpr ⟨toPoly num, by rw [hpoly, mul_comm]⟩
  have heq := congrArg toPoly (mul_of_tryExactDivide hmul hden.canonical hsingle hq)
  rw [hpoly, hpoly] at heq
  have hne : toPoly den ≠ 0 := by
    intro h0
    rw [toPoly_injective hden.canonical canonical_zero (h0.trans (value_zero _).symm)] at hlen
    cases hlen
  rw [tryExactDivide_of_single hden.canonical hsingle] at hq ⊢
  rw [hq, toPoly_injective (divideTerms_canonical canonical_zero hq) hnum.canonical (mul_right_cancel₀ hne heq)]

theorem tryExactDivide_mul_batch :
    tryExactDivide ((symbol "batch").mul (const 131072)) (const 131072) = some (symbol "batch") :=
  tryExactDivide_mul (.symbol _) (.const _) rfl

end Onnxsim.Symbolic.Faithful
