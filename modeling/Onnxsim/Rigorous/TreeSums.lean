import Mathlib.Algebra.BigOperators.Ring.List
import Onnxsim.Lib.Results
import Onnxsim.Rigorous.Kernels

namespace Onnxsim.Rigorous.Contractions

open List Lib.PartialSums Lib.Roundings Rigorous.Float32 Covering
open Kernels

variable {ι : Type}

section

variable (A : Arithmetic)

def Dots (l : List (ℚ × ℚ)) (s : ℚ) : Prop := Accumulates A.add (l.map fun p => A.mul p.1 p.2) s

/-- The errors that a contraction multiplies by the constant's magnitudes. -/
def lhsTerm (g v : ℚ) (e : Option ℚ) : ℚ := plusTerm A (scale A g |v|) e

/-- The magnitudes that a contraction multiplies by the constant's errors. -/
def rhsTerm (v : ℚ) (e : Option ℚ) : ℚ := plusTerm A |v| e

/-- The error terms of a contraction over `is`; `g` is the `gamma` of its size. -/
def ContractionTerms (g : ℚ) (is : List ι) (v : ι → ℚ) (e : Option (ι → ℚ)) (k : ι → ℚ) (ke : Option (ι → ℚ))
    (terms : ℚ) : Prop :=
  ∃ s, Dots A (is.map fun i => (lhsTerm A g (v i) (e.map (· i)), |k i|)) s ∧
    match ke with
    | none => terms = s
    | some ke => ∃ t, Dots A (is.map fun i => (rhsTerm A (v i) (e.map (· i)), ke i)) t ∧ terms = A.add s t

end

def lossOf (L T b : ℚ) : ℚ := if T * b = 0 then 0 else L * b + 1

def errAt (e : Option (ι → ℚ)) (i : ι) : ℚ := errOf (e.map (· i))

def lhsTotal (n : Nat) (v e : ℚ) : ℚ := |v| * highamGamma n + e

def contractionTotal (is : List ι) (v : ι → ℚ) (e : Option (ι → ℚ)) (k : ι → ℚ) (ke : Option (ι → ℚ)) : ℚ :=
  (is.map fun i => lhsTotal is.length (v i) (errAt e i) * |k i|).sum +
    (is.map fun i => (|v i| + errAt e i) * errAt ke i).sum

def contractionLosses (is : List ι) (v : ι → ℚ) (e : Option (ι → ℚ)) (k : ι → ℚ) (ke : Option (ι → ℚ)) : ℚ :=
  (is.map fun i => lossOf 1 (lhsTotal is.length (v i) (errAt e i)) |k i|).sum +
    (is.map fun i => lossOf 0 (|v i| + errAt e i) (errAt ke i)).sum

/-- What the products of a contraction may lose together in its value. -/
def contractionSlip (slip : ℚ → ℚ) (is : List ι) (v k : ι → ℚ) : ℚ :=
  (is.map fun i => slip (v i * k i)).sum / (1 - is.length * U)

/-- The error terms of a contraction make up for its underflows. -/
def ContractionCovered (slip : ℚ → ℚ) (is : List ι) (v : ι → ℚ) (e : Option (ι → ℚ)) (k : ι → ℚ)
    (ke : Option (ι → ℚ)) : Prop :=
  Covered (is.length + 2) (S + is.length + 4) (contractionLosses is v e k ke) (contractionSlip slip is v k)
    (contractionTotal is v e k ke)

variable {s : ℚ} {A : Arithmetic} {slip : ℚ → ℚ}

theorem sum_abs_le_sum {l : List ι} {f g : ι → ℚ} (h : ∀ i ∈ l, |f i| ≤ g i) :
    |(l.map f).sum| ≤ (l.map g).sum := by
  refine (abs_sum_le _).trans ?_
  rw [List.map_map]
  exact sum_le_sum h

variable {is : List ι}

theorem sum_map_sub' (f g : ι → ℚ) : (is.map f).sum - (is.map g).sum = (is.map fun i => f i - g i).sum := by
  induction is with
  | nil => simp
  | cons i is ih =>
    simp only [map_cons, sum_cons]
    rw [← ih]
    ring

theorem dots_error (h : Lawful A slip) {v k : ι → ℚ} (hn : is.length * U < 1 / 2)
    (hs : Dots A (is.map fun i => (v i, k i)) s) :
    |s - (is.map fun i => v i * k i).sum| ≤
      highamGamma is.length * (is.map fun i => |v i * k i|).sum + contractionSlip slip is v k := by
  have hpos : 0 < 1 - is.length * U := by linarith
  rw [Dots, List.map_map] at hs
  change Accumulates A.add (is.map fun i => A.mul (v i) (k i)) s at hs
  have hrounded := hs.rounded h.add U_pos.le
  rw [length_map, Rounded] at hrounded
  have hproducts : |(is.map fun i => A.mul (v i) (k i)).sum - (is.map fun i => v i * k i).sum| ≤
      (is.map fun i => U * |v i * k i| + slip (v i * k i)).sum := by
    rw [sum_map_sub']
    exact sum_abs_le_sum fun i _ => h.mul (v i) (k i)
  have hsizes : ((is.map fun i => A.mul (v i) (k i)).map abs).sum ≤
      (is.map fun i => (1 + U) * |v i * k i| + slip (v i * k i)).sum := by
    rw [List.map_map]
    refine sum_le_sum fun i _ => ?_
    have htriangle := abs_sub_abs_le_abs_sub (A.mul (v i) (k i)) (v i * k i)
    have hmul := h.mul (v i) (k i)
    rw [Function.comp_apply]
    linarith
  rw [sum_map_add, sum_map_mul_left] at hproducts hsizes
  have hpow := one_le_pow U_pos.le (is.length - 1)
  have hpower : (1 + U) ^ is.length ≤ 1 / (1 - is.length * U) := by
    rw [le_div_iff₀ hpos]
    exact one_add_pow_mul_le U_pos.le is.length
  have hlower : (1 + U) ^ (is.length - 1) ≤ (1 + U) ^ is.length := pow_mono U_pos.le (Nat.sub_le _ _)
  have hmul := mul_le_mul_of_nonneg_left hsizes (by linarith : 0 ≤ (1 + U) ^ (is.length - 1) - 1)
  have hZ : 0 ≤ (is.map fun i => |v i * k i|).sum := sum_map_nonneg fun i => abs_nonneg _
  have hslip : 0 ≤ (is.map fun i => slip (v i * k i)).sum := sum_map_nonneg fun i => h.slip_nonneg _
  have hstep : (1 + U) ^ (is.length - 1) * (1 + U) * (is.map fun i => |v i * k i|).sum =
      (1 + U) ^ is.length * (is.map fun i => |v i * k i|).sum := by
    cases is with
    | nil => simp
    | cons i is => rw [length_cons, Nat.add_sub_cancel, ← pow_succ]
  have hsplit : s - (is.map fun i => v i * k i).sum = (s - (is.map fun i => A.mul (v i) (k i)).sum) +
      ((is.map fun i => A.mul (v i) (k i)).sum - (is.map fun i => v i * k i).sum) := by ring
  have hgamma : highamGamma is.length = 1 / (1 - is.length * U) - 1 := by
    rw [highamGamma, eq_sub_iff_add_eq, div_add_one hpos.ne']
    congr 1
    ring
  have hfirst := mul_le_mul_of_nonneg_right hpower hZ
  have hsecond := mul_le_mul_of_nonneg_right (hlower.trans hpower) hslip
  rw [hsplit, hgamma, contractionSlip]
  have hquot : (is.map fun i => slip (v i * k i)).sum / (1 - is.length * U) =
      1 / (1 - is.length * U) * (is.map fun i => slip (v i * k i)).sum := by ring
  rw [hquot]
  refine (abs_add_le _ _).trans ((add_le_add hrounded hproducts).trans ?_)
  linarith

theorem contractionSlip_nonneg (h : Lawful A slip) (hn : is.length * U < 1 / 2) (v k : ι → ℚ) :
    0 ≤ contractionSlip slip is v k :=
  div_nonneg (sum_map_nonneg fun i => h.slip_nonneg _) (by linarith)

variable {T g : ℚ} {n : Nat}

theorem lossOf_nonneg {L b : ℚ} (hL : 0 ≤ L) (hb : 0 ≤ b) : 0 ≤ lossOf L T b := by
  rw [lossOf]
  split
  · exact le_rfl
  · exact add_nonneg (mul_nonneg hL hb) zero_le_one

theorem dots_under (h : Lawful A slip) {is : List ι} {a b T : ι → ℚ} {m L : ℚ} (hm : 0 ≤ m) (hm' : (m + 1) * U ≤ 1)
    (hL : 0 ≤ L) (hT : ∀ i, 0 ≤ T i) (hb : ∀ i, 0 ≤ b i) (ha : ∀ i, Under U (ETA / 2) m L (T i) (a i))
    (hs : Dots A (is.map fun i => (a i, b i)) s) :
    Under U (ETA / 2) (m + 1 + (is.length - 1 : Nat)) (is.map fun i => lossOf L (T i) (b i)).sum
      (is.map fun i => T i * b i).sum s := by
  have hproduct : ∀ i, Under U (ETA / 2) (m + 1) (lossOf L (T i) (b i)) (T i * b i) (A.mul (a i) (b i)) := by
    intro i
    have hone : (1 : ℚ) - 0 * U = 1 := by ring
    have htimes := (ha i).times h.products U_pos.le U_le_one half_ETA_nonneg hm (s := 0) le_rfl (by norm_num) hL
      (hT i) (hb i) (by rw [hone, one_mul])
    rw [lossOf]
    split
    · next hzero =>
      rw [hzero]
      exact Under.zero htimes.1
    · rwa [add_zero] at htimes
  rw [Dots, List.map_map] at hs
  have hlower := Accumulates.lower h.add U_pos.le U_le_one (fun x hx => by
    obtain ⟨i, -, rfl⟩ := List.mem_map.mp hx
    exact (hproduct i).1) hs
  rw [length_map] at hlower
  exact Under.sum U_pos.le U_le_one half_ETA_nonneg (by linarith) hm' (fun i _ => lossOf_nonneg hL (hb i))
    (fun i _ => mul_nonneg (hT i) (hb i)) (fun i _ => hproduct i) hlower

theorem scaled_under (h : Lawful A slip) (hg : gamma A n = some g) (v : ℚ) :
    Under U (ETA / 2) (S + 1) 1 (|v| * highamGamma n) (scale A g |v|) := by
  have hgamma := highamGamma_nonneg (gamma_bound hg)
  cases n with
  | zero =>
    have hzero : highamGamma 0 = 0 := by rw [highamGamma, Nat.cast_zero, zero_mul, zero_div]
    have hg0 := gamma_near h hg
    rw [hzero, mul_zero] at hg0
    rw [hzero, mul_zero]
    have hnonneg := h.mul_nonneg |v| (A.cast g) (abs_nonneg v) (h.cast_nonneg g hg0)
    exact (Under.zero hnonneg).mono U_pos.le half_ETA_nonneg le_rfl le_rfl zero_le_one
  | succ n =>
    have hscaled := (Under.exact (u := U) (h := ETA / 2) (abs_nonneg v)).times h.products U_pos.le U_le_one
      half_ETA_nonneg le_rfl (s := S) (by norm_num [S]) (by norm_num [S, U]) le_rfl (abs_nonneg v) hgamma
      (cast_gamma h (Nat.succ_pos n) hg)
    rwa [zero_mul, zero_add, zero_add] at hscaled

theorem lhs_under (h : Lawful A slip) (hg : gamma A n = some g) (v : ℚ) {e : Option ℚ} (he : 0 ≤ errOf e) :
    Under U (ETA / 2) (S + 2) 1 (lhsTotal n v (errOf e)) (lhsTerm A g v e) := by
  have hgamma := highamGamma_nonneg (gamma_bound hg)
  have hplus := plusTerm_under h (by norm_num [S]) zero_le_one (mul_nonneg (abs_nonneg v) hgamma)
    (scaled_under h hg v) (o := e) (le_refl (0 : ℚ)) he (fun s hs => by
      rw [hs] at he ⊢
      exact (Under.exact he).mono U_pos.le half_ETA_nonneg he (by norm_num [S]) le_rfl)
    (fun hnone => by rw [hnone]; rfl)
  have hcount : S + 1 + 1 = S + 2 := by ring
  rwa [hcount, add_zero] at hplus

theorem rhs_under (h : Lawful A slip) (v : ℚ) {e : Option ℚ} (he : 0 ≤ errOf e) :
    Under U (ETA / 2) 1 0 (|v| + errOf e) (rhsTerm A v e) := by
  have hplus := plusTerm_under h le_rfl le_rfl (abs_nonneg v) (Under.exact (u := U) (h := ETA / 2) (abs_nonneg v))
    (o := e) (le_refl (0 : ℚ)) he (fun s hs => by
      rw [hs] at he ⊢
      exact Under.exact he)
    (fun hnone => by rw [hnone]; rfl)
  rwa [zero_add, add_zero] at hplus

variable {v k : ι → ℚ} {e ke : Option (ι → ℚ)}

theorem lhsTotal_nonneg (hn : n * U < 1 / 2) {v e : ℚ} (he : 0 ≤ e) : 0 ≤ lhsTotal n v e :=
  add_nonneg (mul_nonneg (abs_nonneg v) (highamGamma_nonneg hn)) he

theorem dots_size (h : Lawful A slip) (hn : is.length * U < 1 / 2) (hs : Dots A (is.map fun i => (v i, k i)) s)
    (hT : highamGamma is.length * (is.map fun i => |v i * k i|).sum ≤ T) :
    U * |s| ≤ 2 * T + U * contractionSlip slip is v k := by
  have hdots := dots_error h hn hs
  have hZ : 0 ≤ (is.map fun i => |v i * k i|).sum := sum_map_nonneg fun i => abs_nonneg _
  have hsum := sum_abs_le_sum (l := is) (f := fun i => v i * k i) (g := fun i => |v i * k i|) fun i _ => le_rfl
  have hgamma := mul_le_of_le_one_left hZ (highamGamma_le_one hn)
  have hsize : |s| ≤ 2 * (is.map fun i => |v i * k i|).sum + contractionSlip slip is v k := by
    have htriangle := abs_sub_abs_le_abs_sub s (is.map fun i => v i * k i).sum
    linarith
  have hUZ : U * (is.map fun i => |v i * k i|).sum ≤ highamGamma is.length * (is.map fun i => |v i * k i|).sum := by
    cases is with
    | nil => simp
    | cons i is => exact mul_le_mul_of_nonneg_right (U_le_highamGamma (Nat.succ_pos _) hn) hZ
  have hscaled := mul_le_mul_of_nonneg_left hsize U_pos.le
  linarith

theorem contractionLosses_nonneg (is : List ι) (v : ι → ℚ) (e : Option (ι → ℚ)) (k : ι → ℚ)
    (hke : ∀ i, 0 ≤ errAt ke i) : 0 ≤ contractionLosses is v e k ke :=
  add_nonneg (sum_map_nonneg fun _ => lossOf_nonneg zero_le_one (abs_nonneg _))
    (sum_map_nonneg fun i => lossOf_nonneg le_rfl (hke i))

theorem contractionTerms_under (h : Lawful A slip) {terms : ℚ} (hg : gamma A is.length = some g)
    (he : ∀ i, 0 ≤ errAt e i) (hke : ∀ i, 0 ≤ errAt ke i) (hterms : ContractionTerms A g is v e k ke terms) :
    Under U (ETA / 2) (S + is.length + 4) (contractionLosses is v e k ke) (contractionTotal is v e k ke) terms := by
  have hn := gamma_bound hg
  have hlength : ((is.length - 1 : Nat) : ℚ) ≤ is.length := by exact_mod_cast Nat.sub_le _ _
  obtain ⟨s, hs, hrest⟩ := hterms
  have hlhs := dots_under h (T := fun i => lhsTotal is.length (v i) (errAt e i)) (b := fun i => |k i|)
    (by norm_num [S]) (by norm_num [S, U]) zero_le_one (fun i => lhsTotal_nonneg hn (he i)) (fun i => abs_nonneg _)
    (fun i => lhs_under h hg (v i) (he i)) hs
  have hlhsT : 0 ≤ (is.map fun i => lhsTotal is.length (v i) (errAt e i) * |k i|).sum :=
    sum_map_nonneg fun i => mul_nonneg (lhsTotal_nonneg hn (he i)) (abs_nonneg _)
  have hlhsL : 0 ≤ (is.map fun i => lossOf 1 (lhsTotal is.length (v i) (errAt e i)) |k i|).sum :=
    sum_map_nonneg fun i => lossOf_nonneg zero_le_one (abs_nonneg _)
  have hrhsT : 0 ≤ (is.map fun i => (|v i| + errAt e i) * errAt ke i).sum :=
    sum_map_nonneg fun i => mul_nonneg (add_nonneg (abs_nonneg _) (he i)) (hke i)
  have hrhsL : 0 ≤ (is.map fun i => lossOf 0 (|v i| + errAt e i) (errAt ke i)).sum :=
    sum_map_nonneg fun i => lossOf_nonneg le_rfl (hke i)
  have hmore : S + 2 + 1 + ((is.length - 1 : Nat) : ℚ) ≤ S + is.length + 3 := by linarith
  have hlhs' := hlhs.mono U_pos.le half_ETA_nonneg hlhsT hmore le_rfl
  have hcount : S + is.length + 3 + 1 = S + is.length + 4 := by ring
  have hm : (0 : ℚ) ≤ S + is.length + 3 := by
    have : (0 : ℚ) ≤ is.length := Nat.cast_nonneg _
    norm_num [S]
    linarith
  cases hke' : ke with
  | none =>
    rw [hke'] at hrest
    have hzero : (is.map fun i => (|v i| + errAt e i) * errAt (none : Option (ι → ℚ)) i).sum = 0 := by
      refine sum_eq_zero fun x hx => ?_
      obtain ⟨i, -, rfl⟩ := List.mem_map.mp hx
      exact mul_zero _
    rw [hke'] at hrhsL
    rw [hrest, contractionTotal, contractionLosses, hzero, add_zero]
    exact hlhs'.mono U_pos.le half_ETA_nonneg hlhsT (by linarith) (by linarith)
  | some ke' =>
    rw [hke'] at hrest
    obtain ⟨t, ht, rfl⟩ := hrest
    have hrhs := dots_under h (T := fun i => |v i| + errAt e i) (b := ke') zero_le_one (by norm_num [U]) le_rfl
      (fun i => add_nonneg (abs_nonneg _) (he i)) (fun i => by simpa [hke', errAt, errOf] using hke i)
      (fun i => rhs_under h (v i) (he i)) ht
    rw [hke'] at hrhsT hrhsL
    have hmore' : 1 + 1 + ((is.length - 1 : Nat) : ℚ) ≤ S + is.length + 3 := by
      norm_num [S]
      linarith
    have hrhs' := hrhs.mono U_pos.le half_ETA_nonneg hrhsT hmore' le_rfl
    have hboth := hlhs'.plus h.add U_pos.le U_le_one half_ETA_nonneg hm hlhsL hrhsL hlhsT hrhsT hrhs'
    rwa [hcount] at hboth

theorem contraction_encloses (h : Lawful A slip) {x κ : ι → ℚ} {terms e' : ℚ} (hg : gamma A is.length = some g)
    (hx : ∀ i, Encloses (x i) (v i) (errAt e i)) (hκ : ∀ i, |κ i - k i| ≤ errAt ke i)
    (hcovered : ContractionCovered slip is v e k ke) (hs : Dots A (is.map fun i => (v i, k i)) s)
    (hterms : ContractionTerms A g is v e k ke terms) (he : fin A terms (is.length + 2) = some e') :
    Encloses (is.map fun i => x i * κ i).sum s e' := by
  have hn := gamma_bound hg
  have hke : ∀ i, 0 ≤ errAt ke i := fun i => (abs_nonneg _).trans (hκ i)
  have hgamma := highamGamma_nonneg hn
  have hZ : 0 ≤ (is.map fun i => |v i * k i|).sum := sum_map_nonneg fun i => abs_nonneg _
  have hslip := contractionSlip_nonneg h hn v k
  have hdots := dots_error h hn hs
  have hproducts : |(is.map fun i => x i * κ i).sum - (is.map fun i => v i * k i).sum| ≤
      (is.map fun i => |k i| * errAt e i + |v i| * errAt ke i + errAt e i * errAt ke i).sum := by
    rw [sum_map_sub']
    exact sum_abs_le_sum fun i _ => product_error (hx i).abs_le (hκ i)
  have htotal : contractionTotal is v e k ke = highamGamma is.length * (is.map fun i => |v i * k i|).sum +
      (is.map fun i => |k i| * errAt e i + |v i| * errAt ke i + errAt e i * errAt ke i).sum := by
    rw [contractionTotal, ← sum_map_mul_left, ← sum_map_add, ← sum_map_add]
    refine congrArg List.sum (map_congr_left fun i _ => ?_)
    rw [lhsTotal, abs_mul]
    ring
  have hrest : 0 ≤ (is.map fun i => |k i| * errAt e i + |v i| * errAt ke i + errAt e i * errAt ke i).sum :=
    sum_map_nonneg fun i => add_nonneg (add_nonneg (mul_nonneg (abs_nonneg _) (hx i).1)
      (mul_nonneg (abs_nonneg _) (hke i))) (mul_nonneg (hx i).1 (hke i))
  have hT : 0 ≤ contractionTotal is v e k ke := by
    rw [htotal]
    exact add_nonneg (mul_nonneg hgamma hZ) hrest
  refine fin_encloses h (contractionTerms_under h hg (fun i => (hx i).1) hke hterms)
    (by norm_num [S]; linarith) (contractionLosses_nonneg is v e k hke) hT hslip hcovered he ?_ ?_
  · have hsplit : (is.map fun i => x i * κ i).sum - s = ((is.map fun i => v i * k i).sum - s) +
        ((is.map fun i => x i * κ i).sum - (is.map fun i => v i * k i).sum) := by ring
    rw [abs_sub_comm] at hdots
    rw [hsplit, htotal]
    linarith [abs_add_le ((is.map fun i => v i * k i).sum - s)
      ((is.map fun i => x i * κ i).sum - (is.map fun i => v i * k i).sum)]
  · refine dots_size h hn hs ?_
    rw [htotal]
    linarith

end Onnxsim.Rigorous.Contractions

namespace Onnxsim.Rigorous.TreeSums

open List Lib.PartialSums Lib.Roundings Rigorous.Float32 Covering
open Kernels Contractions

/-- A row with zeros behind it, to a multiple of `BLOCK`. -/
def padded (l : List ℚ) : List ℚ := l ++ List.replicate ((BLOCK - l.length % BLOCK) % BLOCK) 0

def blocks (l : List ℚ) : List (List ℚ) :=
  (List.range (l.length / BLOCK)).map fun j => (l.drop (j * BLOCK)).take BLOCK

/-- A row summed block by block; the number counts the levels of blocks. -/
inductive TreeSum (A : Arithmetic) : List ℚ → ℚ → Nat → Prop where
  | last {l : List ℚ} {s : ℚ} : l.length ≤ BLOCK → Accumulates A.add l s → TreeSum A l s 0
  | level {l sums : List ℚ} {s : ℚ} {k : Nat} : BLOCK < l.length →
      List.Forall₂ (Accumulates A.add) (blocks (padded l)) sums → TreeSum A sums s k → TreeSum A l s (k + 1)

/-- The `n` of the `gamma_n` that bounds a tree sum of `n` terms. -/
def treeTerms (n levels : Nat) : Nat := if n ≤ BLOCK then max (n - 1) 1 else (levels + 1) * (BLOCK - 1)

/-- The error terms of a sum; `g` is the `gamma` of its terms. -/
def SumTerms (A : Arithmetic) (g : ℚ) (v : List ℚ) (e : Option (List ℚ)) (terms : ℚ) : Prop :=
  ∃ absum levels, TreeSum A (v.map abs) absum levels ∧
    match e with
    | none => terms = scale A g absum
    | some e => ∃ es levels', TreeSum A e es levels' ∧ terms = A.add (scale A g absum) es

theorem flatten_blocks_aux (l : List ℚ) (m : Nat) :
    ((List.range m).map fun j => (l.drop (j * BLOCK)).take BLOCK).flatten = l.take (m * BLOCK) := by
  induction m with
  | zero => simp
  | succ m ih =>
    rw [range_succ, map_append, flatten_append, ih, map_singleton, flatten_singleton,
      Nat.succ_mul, take_add]

theorem length_padded (l : List ℚ) : BLOCK ∣ (padded l).length := by
  rw [padded, length_append, length_replicate]
  simp only [BLOCK]
  omega

theorem flatten_blocks (l : List ℚ) : (blocks (padded l)).flatten = padded l := by
  rw [blocks, flatten_blocks_aux, Nat.div_mul_cancel (length_padded l), take_length]

theorem length_of_mem_blocks {l b : List ℚ} (h : b ∈ blocks l) : b.length ≤ BLOCK := by
  obtain ⟨j, -, rfl⟩ := List.mem_map.mp h
  exact length_take_le _ _

theorem sum_padded (l : List ℚ) : (padded l).sum = l.sum := by
  rw [padded, sum_append, sum_replicate, nsmul_zero, add_zero]

theorem sum_abs_padded (l : List ℚ) : ((padded l).map abs).sum = (l.map abs).sum := by
  rw [padded, map_append, sum_append, map_replicate, abs_zero, sum_replicate, nsmul_zero, add_zero]

theorem padded_nonneg {l : List ℚ} (h : ∀ x ∈ l, 0 ≤ x) : ∀ x ∈ padded l, 0 ≤ x := by
  intro x hx
  cases mem_append.mp hx with
  | inl hold => exact h x hold
  | inr hzero => rw [(mem_replicate.mp hzero).2]

section

variable {A : Arithmetic} {slip : ℚ → ℚ} {l : List ℚ} {s : ℚ} {k : Nat} (h : Lawful A slip) (ht : TreeSum A l s k)

include h ht

theorem TreeSum.rounded : Rounded U ((k + 1) * (BLOCK - 1)) l s := by
  induction ht with
  | last hl hs => exact (hs.rounded h.add U_pos.le).mono U_pos.le (by omega)
  | @level l sums s k hl hblocks _ ih =>
    have heach : List.Forall₂ (Rounded U (BLOCK - 1)) (blocks (padded l)) sums := by
      refine (forall₂_iff_get.mpr ?_)
      obtain ⟨hlen, hget⟩ := forall₂_iff_get.mp hblocks
      refine ⟨hlen, fun i hi hi' => ?_⟩
      have hblock := length_of_mem_blocks (List.get_mem (blocks (padded l)) ⟨i, hi⟩)
      exact ((hget i hi hi').rounded h.add U_pos.le).mono U_pos.le (by omega)
    have hflat := Rounded.flatten U_pos.le heach ih
    rw [flatten_blocks, Rounded, sum_padded, sum_abs_padded] at hflat
    have hcount : BLOCK - 1 + (k + 1) * (BLOCK - 1) = (k + 1 + 1) * (BLOCK - 1) := by ring
    rwa [hcount] at hflat

theorem TreeSum.lower (hl : ∀ x ∈ l, 0 ≤ x) : Lower U ((k + 1) * (BLOCK - 1)) l s := by
  induction ht with
  | last hlen hs => exact (hs.lower h.add U_pos.le U_le_one hl).mono U_pos.le U_le_one hl (by omega)
  | @level l sums s k hlen hblocks _ ih =>
    have hnonneg : ∀ b ∈ blocks (padded l), ∀ x ∈ b, 0 ≤ x := by
      intro b hb x hx
      refine padded_nonneg hl x ?_
      rw [← flatten_blocks]
      exact mem_flatten.mpr ⟨b, hb, hx⟩
    have heach : List.Forall₂ (Lower U (BLOCK - 1)) (blocks (padded l)) sums := by
      refine (forall₂_iff_get.mpr ?_)
      obtain ⟨hsame, hget⟩ := forall₂_iff_get.mp hblocks
      refine ⟨hsame, fun i hi hi' => ?_⟩
      have hmem := List.get_mem (blocks (padded l)) ⟨i, hi⟩
      have hblock := length_of_mem_blocks hmem
      exact ((hget i hi hi').lower h.add U_pos.le U_le_one (hnonneg _ hmem)).mono U_pos.le U_le_one (hnonneg _ hmem)
        (by omega)
    have hsums : ∀ x ∈ sums, 0 ≤ x := by
      intro x hx
      obtain ⟨b, -, hb⟩ := Onnxsim.Lib.Results.forall₂_exists_left heach hx
      exact hb.1
    have hflat := Lower.flatten U_le_one heach (ih hsums)
    rw [flatten_blocks, Lower, sum_padded] at hflat
    have hcount : BLOCK - 1 + (k + 1) * (BLOCK - 1) = (k + 1 + 1) * (BLOCK - 1) := by ring
    rwa [hcount] at hflat

theorem treeSum_rounded : Rounded U (treeTerms l.length k) l s := by
  rw [treeTerms]
  split
  · next hlen =>
    cases ht with
    | last _ hs => exact (hs.rounded h.add U_pos.le).mono U_pos.le (le_max_left _ _)
    | level hlt _ _ => omega
  · exact ht.rounded h

theorem treeSum_lower (hl : ∀ x ∈ l, 0 ≤ x) : Lower U (treeTerms l.length k) l s := by
  rw [treeTerms]
  split
  · next hlen =>
    cases ht with
    | last _ hs => exact (hs.lower h.add U_pos.le U_le_one hl).mono U_pos.le U_le_one hl (le_max_left _ _)
    | level hlt _ _ => omega
  · exact ht.lower h hl

omit h ht

theorem length_blocks (l : List ℚ) : (blocks l).length = l.length / BLOCK := by
  rw [blocks, length_map, length_range]

theorem TreeSum.levels_eq {l' : List ℚ} {s' : ℚ} {k' : Nat} (ht : TreeSum A l s k) (ht' : TreeSum A l' s' k')
    (hlen : l.length = l'.length) : k = k' := by
  induction ht generalizing l' s' k' with
  | last hl _ =>
    cases ht' with
    | last _ _ => rfl
    | level hl' _ _ => omega
  | level hl hblocks _ ih =>
    cases ht' with
    | last hl' _ => omega
    | level _ hblocks' hrest =>
      refine congrArg (· + 1) (ih hrest ?_)
      rw [← hblocks.length_eq, ← hblocks'.length_eq, length_blocks, length_blocks, padded, padded]
      simp only [length_append, length_replicate, hlen]

end

variable {A : Arithmetic} {slip : ℚ → ℚ}

/-- The most terms in a row of additions for which the floor covers the one underflow of a sum's error. -/
def SUM_LIMIT : Nat := 4000

theorem covered_of_sum {n : Nat} (hn : n ≤ SUM_LIMIT) {T : ℚ} (hT : 0 ≤ T) :
    Covered (n + 2) (n + S + 2) 1 0 T := by
  by_cases hsmall : T + 0 ≤ (1 - 4 * U) * ETA
  · exact .inl hsmall
  · refine .inr ?_
    rw [add_zero, not_le] at hsmall
    have hcast : (n : ℚ) ≤ 4000 := by exact_mod_cast hn
    have hcount : ((n + 2 + 8 : Nat) : ℚ) * U = (n + 10) * U := by push_cast; ring
    have hU : U = 1 / 2 ^ 24 := rfl
    have hN : (n + 10) * U ≤ 4010 / 2 ^ 24 := by
      rw [hU]
      linarith
    have hpos : 0 < 1 - (n + 10) * U := by
      norm_num at hN ⊢
      linarith
    have hinflation : inflation (n + 2) = 1 + 2 * ((n + 10) * U / (1 - (n + 10) * U)) := by
      rw [inflation, highamGamma, hcount]
    generalize hNdef : (n + 10 : ℚ) * U = N at hN hpos hinflation
    have hN0 : 0 ≤ N := by
      rw [← hNdef]
      exact mul_nonneg (by positivity) U_pos.le
    have hone : 1 ≤ inflation (n + 2) := by
      rw [hinflation]
      linarith [div_nonneg hN0 hpos.le]
    have hcancel : inflation (n + 2) * (1 - N) = 1 + N := by
      rw [hinflation]
      field_simp
      ring
    -- the inflation gains `N` more than the roundings lose
    have hgain : N + 23 / 8 * U ≤ inflation (n + 2) * (1 - (n + S + 2 + S + 2) * U) - 1 - U := by
      have hround : 1 - (n + S + 2 + S + 2) * U = (1 - N) + 31 / 8 * U := by
        rw [← hNdef, S]
        ring
      have hrest := mul_le_mul_of_nonneg_right hone (by linarith [U_pos] : 0 ≤ 31 / 8 * U)
      rw [hround, mul_add, hcancel]
      linarith
    have hloss : inflation (n + 2) * 1 - 1 + U ≤ 2 * (N + 3 / 2 * U) := by
      have hsquare : N * N ≤ U * (1 - N) := by
        have h₁ : N * N ≤ 4010 / 2 ^ 24 * (4010 / 2 ^ 24) := mul_le_mul hN hN hN0 (by norm_num)
        have h₂ : U * (1 - 4010 / 2 ^ 24) ≤ U * (1 - N) := mul_le_mul_of_nonneg_left (by linarith) U_pos.le
        linarith
      have hquot : N / (1 - N) ≤ N + U := by
        rw [div_le_iff₀ hpos]
        linarith
      rw [hinflation]
      linarith
    have hfloor : N + 3 / 2 * U ≤ (N + 23 / 8 * U) * (1 - 4 * U) := by
      have hsmallU : 4 * N + 23 / 2 * U ≤ 11 / 8 := by
        norm_num [U] at hN ⊢
        linarith
      have hscaled := mul_le_mul_of_nonneg_right hsmallU U_pos.le
      linarith
    have hfactor : 0 ≤ N + 23 / 8 * U := by linarith [U_pos]
    calc (inflation (n + 2) * 1 - 1 + U) * (ETA / 2) + (1 + U) * 0
        ≤ 2 * (N + 3 / 2 * U) * (ETA / 2) + (1 + U) * 0 :=
          add_le_add_left (mul_le_mul_of_nonneg_right hloss half_ETA_nonneg) _
      _ = (N + 3 / 2 * U) * ETA := by ring
      _ ≤ (N + 23 / 8 * U) * (1 - 4 * U) * ETA := mul_le_mul_of_nonneg_right hfloor ETA_pos.le
      _ = (N + 23 / 8 * U) * ((1 - 4 * U) * ETA) := by ring
      _ ≤ (N + 23 / 8 * U) * T := mul_le_mul_of_nonneg_left hsmall.le hfactor
      _ ≤ _ := mul_le_mul_of_nonneg_right hgain hT

theorem treeTerms_pos (n k : Nat) : 0 < treeTerms n k := by
  rw [treeTerms, BLOCK]
  split
  · omega
  · omega

variable {s terms g : ℚ} {k : Nat} {l : List ℚ}

theorem lower_under (hl : ∀ x ∈ l, 0 ≤ x) (hs : Lower U k l s) : Under U (ETA / 2) k 0 l.sum s := by
  have hsum := Under.sum (h := ETA / 2) U_pos.le U_le_one half_ETA_nonneg le_rfl (by rw [zero_mul]; exact zero_le_one)
    (l := l) (f := id) (g := id) (L := fun _ => 0) (fun _ _ => le_rfl) hl
    (fun x hx => Under.exact (hl x hx)) (k := k) (s := s) (by rwa [List.map_id])
  have hzero : (l.map fun _ => (0 : ℚ)).sum = 0 := sum_eq_zero fun x hx => by
    obtain ⟨_, -, rfl⟩ := List.mem_map.mp hx
    rfl
  rwa [hzero, zero_add, List.map_id] at hsum

def sumTotal (n : Nat) (v : List ℚ) (e : Option (List ℚ)) : ℚ :=
  (v.map abs).sum * highamGamma n + ((e.map List.sum).getD 0)

theorem sumTerms_under (h : Lawful A slip) {v : List ℚ} {e : Option (List ℚ)} (hs : TreeSum A v s k)
    (hg : gamma A (treeTerms v.length k) = some g) (he : ∀ es, e = some es → es.length = v.length ∧ ∀ x ∈ es, 0 ≤ x)
    (hterms : SumTerms A g v e terms) :
    Under U (ETA / 2) (treeTerms v.length k + S + 2) 1 (sumTotal (treeTerms v.length k) v e) terms := by
  have hgamma := highamGamma_nonneg (gamma_bound hg)
  have hS : (0 : ℚ) ≤ treeTerms v.length k := Nat.cast_nonneg _
  have habs : ∀ x ∈ v.map abs, 0 ≤ x := by
    intro x hx
    obtain ⟨y, -, rfl⟩ := List.mem_map.mp hx
    exact abs_nonneg y
  obtain ⟨absum, levels, habsum, hrest⟩ := hterms
  have hlevels := hs.levels_eq habsum (length_map _).symm
  have hlower := treeSum_lower h habsum habs
  rw [length_map, ← hlevels] at hlower
  have hscaled := (lower_under habs hlower).times h.products U_pos.le U_le_one half_ETA_nonneg hS (s := S)
    (by norm_num [S]) (by norm_num [S, U]) le_rfl (sum_abs_nonneg v) hgamma (cast_gamma h (treeTerms_pos _ _) hg)
  have hzero : (0 : ℚ) * highamGamma (treeTerms v.length k) + 1 = 1 := by ring
  rw [hzero] at hscaled
  have hT : 0 ≤ (v.map abs).sum * highamGamma (treeTerms v.length k) := mul_nonneg (sum_abs_nonneg v) hgamma
  have hcount : (treeTerms v.length k : ℚ) + S + 1 + 1 = treeTerms v.length k + S + 2 := by ring
  cases he' : e with
  | none =>
    rw [he'] at hrest
    have hsum : sumTotal (treeTerms v.length k) v none =
        (v.map abs).sum * highamGamma (treeTerms v.length k) := add_zero _
    rw [hrest, hsum]
    exact hscaled.mono U_pos.le half_ETA_nonneg hT (by linarith) le_rfl
  | some es =>
    rw [he'] at hrest
    obtain ⟨t, levels', ht, rfl⟩ := hrest
    obtain ⟨hlen, hnonneg⟩ := he es he'
    have hlevels' := hs.levels_eq ht hlen.symm
    have hes := treeSum_lower h ht hnonneg
    rw [hlen, ← hlevels'] at hes
    have hmore : (treeTerms v.length k : ℚ) ≤ treeTerms v.length k + S + 1 := by
      norm_num [S]
      linarith
    have hes' := (lower_under hnonneg hes).mono U_pos.le half_ETA_nonneg (sum_nonneg hnonneg) hmore le_rfl
    have hboth := hscaled.plus h.add U_pos.le U_le_one half_ETA_nonneg (by norm_num [S]; linarith) zero_le_one le_rfl
      hT (sum_nonneg hnonneg) hes'
    rwa [hcount, add_zero] at hboth

def NUMEL_LIMIT : Nat := 2 ^ 63

theorem TreeSum.levels_le {A : Arithmetic} (ht : TreeSum A l s k) {j : Nat} (hlen : l.length ≤ BLOCK ^ (j + 1)) :
    k ≤ j := by
  induction ht generalizing j with
  | last _ _ => exact Nat.zero_le j
  | @level l sums s k hl hblocks _ ih =>
    cases j with
    | zero =>
      rw [zero_add, pow_one] at hlen
      omega
    | succ j =>
      refine Nat.succ_le_succ (ih ?_)
      have hdvd := length_padded l
      have hpadded : (padded l).length < l.length + BLOCK := by
        rw [padded, length_append, length_replicate]
        have := Nat.mod_lt (BLOCK - l.length % BLOCK) (by decide : 0 < BLOCK)
        omega
      have hcount : (padded l).length = BLOCK * sums.length := by
        rw [← hblocks.length_eq, length_blocks, Nat.mul_div_cancel' hdvd]
      have hpow : BLOCK ^ (j + 1 + 1) = BLOCK * BLOCK ^ (j + 1) := pow_succ' _ _
      rw [hpow] at hlen
      have hlt : BLOCK * sums.length < BLOCK * (BLOCK ^ (j + 1) + 1) := by
        rw [Nat.mul_succ]
        omega
      exact Nat.lt_succ_iff.mp (Nat.lt_of_mul_lt_mul_left hlt)

theorem treeTerms_le_limit {A : Arithmetic} (ht : TreeSum A l s k) (hlen : l.length ≤ NUMEL_LIMIT) :
    treeTerms l.length k ≤ SUM_LIMIT := by
  have hpow : NUMEL_LIMIT = BLOCK ^ (8 + 1) := by norm_num [NUMEL_LIMIT, BLOCK]
  have hlevels := ht.levels_le (hlen.trans hpow.le)
  rw [treeTerms, BLOCK, SUM_LIMIT]
  split
  · omega
  · omega

theorem sum_encloses (h : Lawful A slip) {ι : Type} {is : List ι} {x v : ι → ℚ} {e : Option (ι → ℚ)} {e' : ℚ}
    (hx : ∀ i, Encloses (x i) (v i) (errAt e i)) (hs : TreeSum A (is.map v) s k)
    (hlimit : treeTerms is.length k ≤ SUM_LIMIT) (hg : gamma A (treeTerms is.length k) = some g)
    (hterms : SumTerms A g (is.map v) (e.map fun e => is.map e) terms)
    (he : fin A terms (treeTerms is.length k + 2) = some e') : Encloses (is.map x).sum s e' := by
  have hlen : (is.map v).length = is.length := length_map _
  have hgamma := highamGamma_nonneg (gamma_bound hg)
  have herrs : ∀ es, (e.map fun e => is.map e) = some es → es.length = (is.map v).length ∧ ∀ y ∈ es, 0 ≤ y := by
    intro es hes
    obtain ⟨e₀, rfl, rfl⟩ := Option.map_eq_some_iff.mp hes
    refine ⟨by rw [length_map, length_map], fun y hy => ?_⟩
    obtain ⟨i, -, rfl⟩ := List.mem_map.mp hy
    exact (hx i).1
  have herrSum : ((e.map fun e => is.map e).map List.sum).getD 0 = (is.map fun i => errAt e i).sum := by
    cases e with
    | none =>
      refine (sum_eq_zero fun y hy => ?_).symm
      obtain ⟨i, -, rfl⟩ := List.mem_map.mp hy
      rfl
    | some e₀ => rfl
  have hE : 0 ≤ (is.map fun i => errAt e i).sum := sum_map_nonneg fun i => (hx i).1
  have hZ := mul_nonneg (sum_abs_nonneg (is.map v)) hgamma
  have hT : 0 ≤ sumTotal (treeTerms is.length k) (is.map v) (e.map fun e => is.map e) := by
    rw [sumTotal, herrSum]
    exact add_nonneg hZ hE
  have hunder := sumTerms_under h hs (by rwa [hlen]) herrs hterms
  rw [hlen] at hunder
  have hrounded := treeSum_rounded h hs
  rw [hlen, Rounded] at hrounded
  have hn := gamma_bound hg
  have hpower : (1 + U) ^ treeTerms is.length k - 1 ≤ highamGamma (treeTerms is.length k) := by
    have hpos : 0 < 1 - (treeTerms is.length k : ℚ) * U := by linarith
    rw [highamGamma, le_div_iff₀ hpos]
    have := one_add_pow_mul_le U_pos.le (treeTerms is.length k)
    linarith
  have hvalue : |s - (is.map v).sum| ≤ ((is.map v).map abs).sum * highamGamma (treeTerms is.length k) := by
    rw [mul_comm]
    exact hrounded.trans (mul_le_mul_of_nonneg_right hpower (sum_abs_nonneg _))
  refine fin_encloses h hunder (by norm_num [S]; positivity) zero_le_one hT le_rfl (covered_of_sum hlimit hT) he ?_ ?_
  · have hinputs : |(is.map x).sum - (is.map v).sum| ≤ (is.map fun i => errAt e i).sum := by
      rw [sum_map_sub']
      exact sum_abs_le_sum fun i _ => (hx i).abs_le
    have hsplit : (is.map x).sum - s = ((is.map v).sum - s) + ((is.map x).sum - (is.map v).sum) := by ring
    rw [abs_sub_comm] at hvalue
    rw [hsplit, sumTotal, herrSum, add_zero]
    linarith [abs_add_le ((is.map v).sum - s) ((is.map x).sum - (is.map v).sum)]
  · have hsum := abs_sum_le (is.map v)
    have htriangle := abs_sub_abs_le_abs_sub s (is.map v).sum
    have hle := mul_le_of_le_one_right (sum_abs_nonneg (is.map v)) (highamGamma_le_one hn)
    have hUle := mul_le_mul_of_nonneg_left (U_le_highamGamma (treeTerms_pos is.length k) hn) (sum_abs_nonneg (is.map v))
    have hsize : |s| ≤ 2 * ((is.map v).map abs).sum := by linarith
    have hscaled := mul_le_mul_of_nonneg_left hsize U_pos.le
    rw [sumTotal, herrSum, mul_zero, add_zero]
    linarith

end Onnxsim.Rigorous.TreeSums
