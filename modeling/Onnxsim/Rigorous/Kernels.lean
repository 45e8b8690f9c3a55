import Mathlib.Tactic.FieldSimp
import Onnxsim.Rigorous.Covering

namespace Onnxsim.Rigorous.Kernels

open Option Lib.Roundings Rigorous.Float32 Covering

section

variable (A : Arithmetic)

/-- The error of one element; `none` where the tensor has no error array. -/
def errOf (e : Option ℚ) : ℚ := e.getD 0

def plusTerm (terms : ℚ) : Option ℚ → ℚ
  | none => terms
  | some t => A.add terms t

def resultTerm (v : ℚ) : ℚ := scale A (UP A) |v|

def addTerms (e₁ e₂ : Option ℚ) (v : ℚ) : ℚ :=
  match e₁, e₂ with
  | none, none => resultTerm A v
  | some e, none => A.add e (resultTerm A v)
  | none, some e => A.add e (resultTerm A v)
  | some e, some e' => A.add (A.add e e') (resultTerm A v)

/-- The error terms of an addition in place; `e₂` is read after the first of them is in. -/
def iaddTerms (e : ℚ) (v : ℚ) (e₂ : Option ℚ) : ℚ := plusTerm A (A.add e (resultTerm A v)) e₂

/-- The error terms of `v * k`, where `v'` is the computed product. -/
def mulTerms (v' v : ℚ) (e : Option ℚ) (a : ℚ) (ke : Option ℚ) : ℚ :=
  plusTerm A (plusTerm A (plusTerm A (resultTerm A v') (e.map (A.mul a))) (ke.map (A.mul |v|)))
    (e.bind fun e => ke.map (A.mul e))

/-- How far the cast of a divisor is from it, relatively, over the cast. -/
def relOf (f : ℚ) : ℚ := A.host (|f - A.cast f| / A.host (|f| * |A.cast f|))

def divTerms (v' v : ℚ) (e : Option ℚ) (f : ℚ) : ℚ :=
  plusTerm A (plusTerm A (resultTerm A v') (e.map fun e => A.div e |A.cast f|))
    (if relOf A f = 0 then none else some (scale A (up32 A (relOf A f)) |v|))

end

variable {o : Option ℚ} {x y v z W e e' : ℚ} {A : Arithmetic} {slip : ℚ → ℚ} {m L T t : ℚ}

theorem plusTerm_under (h : Lawful A slip) (hm : 0 ≤ m) (hL : 0 ≤ L) (hT : 0 ≤ T) (ht : Under U (ETA / 2) m L T t)
    {L' T' : ℚ} (hL' : 0 ≤ L') (hT' : 0 ≤ T') (hsome : ∀ s, o = some s → Under U (ETA / 2) m L' T' s)
    (hnone : o = none → T' = 0) :
    Under U (ETA / 2) (m + 1) (L + L') (T + T') (plusTerm A t o) := by
  cases o with
  | none =>
    rw [hnone rfl, add_zero, plusTerm]
    exact ht.mono U_pos.le half_ETA_nonneg hT (by linarith) (by linarith)
  | some s => exact ht.plus h.add U_pos.le U_le_one half_ETA_nonneg hm hL hL' hT hT' (hsome s rfl)

def lost (z : ℚ) : ℚ := if z = 0 then 0 else 1

theorem lost_nonneg (z : ℚ) : 0 ≤ lost z := by
  rw [lost]
  split
  · exact le_rfl
  · exact zero_le_one

theorem mul_under (h : Lawful A slip) (hx : 0 ≤ x) (hy : 0 ≤ y) :
    Under U (ETA / 2) 1 (lost (x * y)) (x * y) (A.mul x y) := by
  rw [lost]
  split
  · next hzero =>
    rw [hzero]
    exact Under.zero (h.mul_nonneg x y hx hy)
  · have hone : (1 : ℚ) - 0 * U = 1 := by ring
    have hproduct := (Under.exact (u := U) (h := ETA / 2) hx).times h.products U_pos.le U_le_one half_ETA_nonneg
      le_rfl (s := 0) le_rfl (by norm_num) le_rfl hx hy (by rw [hone, one_mul])
    simpa using hproduct

theorem resultTerm_under (h : Lawful A slip) {extra : ℚ} (hW : 0 ≤ W) (hextra : 2 * U * W ≤ extra * (ETA / 2))
    (hv : |v - z| ≤ U * |z| + W) :
    Under U (ETA / 2) (S + 1) ((1 + extra) * lost z) (U * |z|) (resultTerm A v) := by
  have hUP := UP_near h
  have hfactor : 0 ≤ U / (1 - U) := by norm_num [U]
  have hscaled := (Under.exact (u := U) (h := ETA / 2) (abs_nonneg v)).times h.products U_pos.le U_le_one
    half_ETA_nonneg le_rfl (s := S) (by norm_num [S]) (by norm_num [S, U]) le_rfl (abs_nonneg v) hfactor hUP
  rw [zero_mul, zero_add, zero_add] at hscaled
  rw [lost]
  split
  · next hzero =>
    rw [hzero, abs_zero, mul_zero, mul_zero]
    exact Under.zero hscaled.1
  · have hsize : (1 - U) * |z| - W ≤ |v| := by
      have htriangle : |z| ≤ |v| + |v - z| := by
        have := abs_sub_abs_le_abs_sub z v
        rw [abs_sub_comm] at this
        linarith
      linarith
    have hterm : U * |z| - U / (1 - U) * W ≤ |v| * (U / (1 - U)) := by
      have hcancel : (1 - U) * (U / (1 - U)) = U := by norm_num [U]
      have hmul := mul_le_mul_of_nonneg_right hsize hfactor
      calc U * |z| - U / (1 - U) * W = ((1 - U) * (U / (1 - U))) * |z| - U / (1 - U) * W := by rw [hcancel]
        _ = ((1 - U) * |z| - W) * (U / (1 - U)) := by ring
        _ ≤ _ := hmul
    refine ⟨hscaled.1, le_trans ?_ hscaled.2⟩
    have hround : 0 ≤ 1 - (S + 1) * U := by norm_num [S, U]
    have hmul := mul_le_mul_of_nonneg_left hterm hround
    have hloss : (1 - (S + 1) * U) * (U / (1 - U) * W) ≤ extra * (ETA / 2) := by
      have h₁ : (1 - (S + 1) * U) * (U / (1 - U)) ≤ 2 * U := by norm_num [S, U]
      have h₂ := mul_le_mul_of_nonneg_right h₁ hW
      linarith
    linarith

variable {w e₁ e₂ : ℚ}

theorem add_error (h : Lawful A slip) (hx : |x - v| ≤ e₁) (hy : |y - w| ≤ e₂) :
    |x + y - A.add v w| ≤ U * |v + w| + (e₁ + e₂) := by
  have hround := h.add v w
  rw [abs_sub_comm] at hround
  have hsplit : x + y - A.add v w = (v + w - A.add v w) + ((x - v) + (y - w)) := by ring
  rw [hsplit]
  calc |(v + w - A.add v w) + ((x - v) + (y - w))|
      ≤ |v + w - A.add v w| + (|x - v| + |y - w|) := (abs_add_le _ _).trans (add_le_add_right (abs_add_le _ _) _)
    _ ≤ U * |v + w| + (e₁ + e₂) := by linarith

theorem sum_under (h : Lawful A slip) : Under U (ETA / 2) (S + 1) 1 (U * |v + w|) (resultTerm A (A.add v w)) := by
  have hround : |A.add v w - (v + w)| ≤ U * |v + w| + 0 := by
    rw [add_zero]
    exact h.add v w
  have hresult := resultTerm_under h le_rfl (show 2 * U * 0 ≤ (0 : ℚ) * (ETA / 2) by norm_num) hround
  refine hresult.mono U_pos.le half_ETA_nonneg (mul_nonneg U_pos.le (abs_nonneg _)) le_rfl ?_
  rw [add_zero, one_mul, lost]
  split
  · exact zero_le_one
  · exact le_rfl

theorem addTerms_under (h : Lawful A slip) {e₁ e₂ : Option ℚ} (he₁ : 0 ≤ errOf e₁) (he₂ : 0 ≤ errOf e₂) :
    Under U (ETA / 2) (S + 2) 1 (errOf e₁ + errOf e₂ + U * |v + w|) (addTerms A e₁ e₂ (A.add v w)) := by
  have hS : (0 : ℚ) ≤ S + 1 := by norm_num [S]
  have hround : 0 ≤ U * |v + w| := mul_nonneg U_pos.le (abs_nonneg _)
  have hresult := sum_under h (v := v) (w := w)
  have hplus : ∀ {T e : ℚ}, 0 ≤ T → Under U (ETA / 2) (S + 1) 0 T e →
      Under U (ETA / 2) (S + 2) 1 (T + U * |v + w|) (A.add e (resultTerm A (A.add v w))) := by
    intro T e hT he
    have hadd := he.plus h.add U_pos.le U_le_one half_ETA_nonneg hS le_rfl zero_le_one hT hround hresult
    have hcount : S + 1 + 1 = S + 2 := by ring
    rwa [zero_add, hcount] at hadd
  have hexact : ∀ {e : ℚ}, 0 ≤ e → Under U (ETA / 2) (S + 1) 0 e e := fun {e} he =>
    (Under.exact he).mono U_pos.le half_ETA_nonneg he hS le_rfl
  cases e₁ with
  | none =>
    cases e₂ with
    | none =>
      have hzero : errOf none + errOf none + U * |v + w| = U * |v + w| := by rw [errOf, getD_none]; ring
      rw [hzero, addTerms]
      exact hresult.mono U_pos.le half_ETA_nonneg hround (by linarith) le_rfl
    | some e =>
      have hzero : errOf none + errOf (some e) = e := by rw [errOf, getD_none, zero_add]; rfl
      rw [hzero]
      exact hplus he₂ (hexact he₂)
  | some e =>
    cases e₂ with
    | none =>
      have hzero : errOf (some e) + errOf none = e := by rw [errOf, errOf, getD_none, add_zero]; rfl
      rw [hzero]
      exact hplus he₁ (hexact he₁)
    | some e' =>
      refine hplus (add_nonneg he₁ he₂) ?_
      have hsum := (Under.exact (u := U) (h := ETA / 2) he₁).plus h.add U_pos.le U_le_one half_ETA_nonneg le_rfl le_rfl
        le_rfl he₁ he₂ (Under.exact he₂)
      exact hsum.mono U_pos.le half_ETA_nonneg (add_nonneg he₁ he₂) (by norm_num [S]) (by norm_num)

theorem size_of_round {T : ℚ} (hT : U * |z| ≤ T) (hv : |v - z| ≤ U * |z| + W) : U * |v| ≤ 2 * T + U * W := by
  have htriangle : |v| ≤ |z| + |v - z| := by
    have := abs_sub_abs_le_abs_sub v z
    linarith
  have hz : U * (U * |z|) ≤ U * |z| := mul_le_of_le_one_left (mul_nonneg U_pos.le (abs_nonneg z)) U_le_one
  have hscaled := mul_le_mul_of_nonneg_left htriangle U_pos.le
  have hscaled' := mul_le_mul_of_nonneg_left hv U_pos.le
  linarith

theorem add_encloses (h : Lawful A slip) {e₁ e₂ : Option ℚ} (hx : Encloses x v (errOf e₁))
    (hy : Encloses y w (errOf e₂)) (he : fin A (addTerms A e₁ e₂ (A.add v w)) 2 = some e) :
    Encloses (x + y) (A.add v w) e := by
  have hround : 0 ≤ U * |v + w| := mul_nonneg U_pos.le (abs_nonneg _)
  have hT : 0 ≤ errOf e₁ + errOf e₂ + U * |v + w| := add_nonneg (add_nonneg hx.1 hy.1) hround
  refine fin_encloses h (addTerms_under h hx.1 hy.1) (by norm_num [S]) zero_le_one hT le_rfl
    (covered_of_one (by linarith) hT) he ?_ ?_
  · linarith [add_error h hx.abs_le hy.abs_le]
  · refine size_of_round (z := v + w) (by linarith [hx.1, hy.1]) ?_
    rw [add_zero]
    exact h.add v w

/-- What may have been added to an error in place before it is read again. -/
def Grown (e : ℚ) (o : Option ℚ) : Prop := (o = none → e = 0) ∧ ∀ s, o = some s → 0 ≤ s ∧ (1 - U) * e ≤ s

theorem iaddTerms_under (h : Lawful A slip) (he₁ : 0 ≤ e₁) (he₂ : 0 ≤ e₂) (ho : Grown e₂ o) :
    Under U (ETA / 2) (S + 3) 1 (e₁ + U * |v + w| + e₂) (iaddTerms A e₁ (A.add v w) o) := by
  have hS : (0 : ℚ) ≤ S + 1 := by norm_num [S]
  have hround : 0 ≤ U * |v + w| := mul_nonneg U_pos.le (abs_nonneg _)
  have hexact := (Under.exact (u := U) (h := ETA / 2) he₁).mono U_pos.le half_ETA_nonneg he₁ hS le_rfl
  have hfirst := hexact.plus h.add U_pos.le U_le_one half_ETA_nonneg hS le_rfl zero_le_one he₁ hround
    (sum_under h (v := v) (w := w))
  have hgrown : ∀ s, o = some s → Under U (ETA / 2) (S + 1 + 1) 0 e₂ s := by
    intro s hs
    obtain ⟨hs0, hle⟩ := ho.2 s hs
    have hunder : Under U (ETA / 2) 1 0 e₂ s := ⟨hs0, by linarith⟩
    exact hunder.mono U_pos.le half_ETA_nonneg he₂ (by norm_num [S]) le_rfl
  have hplus := plusTerm_under h (by linarith) (by norm_num) (add_nonneg he₁ hround) hfirst le_rfl he₂ hgrown ho.1
  have hcount : S + 1 + 1 + 1 = S + 3 := by ring
  rwa [hcount, add_zero, zero_add] at hplus

theorem iadd_encloses (h : Lawful A slip) (hx : Encloses x v e₁) (hy : Encloses y w e₂) (ho : Grown e₂ o)
    (he : fin A (iaddTerms A e₁ (A.add v w) o) 2 = some e) :
    Encloses (x + y) (A.add v w) e ∧ e₁ ≤ e := by
  have hround : 0 ≤ U * |v + w| := mul_nonneg U_pos.le (abs_nonneg _)
  have hT : 0 ≤ e₁ + U * |v + w| + e₂ := add_nonneg (add_nonneg hx.1 hround) hy.1
  have hunder := iaddTerms_under h (v := v) (w := w) hx.1 hy.1 ho
  have hcovered := covered_of_one (m := S + 3) (by linarith) hT
  refine ⟨fin_encloses h hunder (by norm_num [S]) zero_le_one hT le_rfl hcovered he ?_ ?_, ?_⟩
  · linarith [add_error h hx.abs_le hy.abs_le]
  · refine size_of_round (z := v + w) (by linarith [hx.1, hy.1]) ?_
    rw [add_zero]
    exact h.add v w
  · have hle := le_fin h hunder (by norm_num [S]) zero_le_one hT le_rfl hcovered he
    linarith [hy.1]

theorem pos_encloses (hx : Encloses x v e) : Encloses (max x 0) (max v 0) e :=
  hx.select (abs_max_sub_max_le_abs · · 0) abs_max_zero_le

theorem neg_encloses (hx : Encloses x v e) : Encloses (min x 0) (min v 0) e :=
  hx.select (abs_inf_sub_inf_le_abs · · 0) abs_min_zero_le

theorem hostSub_le (h : Lawful A slip) (hx : Encloses x v e) : A.hostSub v e ≤ x := by
  cases hx.2 with
  | inl heq =>
    rw [heq]
    exact h.hostSub_le v e hx.1
  | inr hslack =>
    have hround := (abs_le.mp (h.hostSub v e)).2
    have hsize : |v - e| ≤ |v| + e := by
      have := abs_sub v e
      rwa [abs_of_nonneg hx.1] at this
    have hsmall : |v - e| / 2 ^ 53 ≤ SLACK * (|v| + e) := by
      have hpos : 0 ≤ |v| + e := add_nonneg (abs_nonneg v) hx.1
      rw [SLACK]
      linarith
    have hdist := (abs_le.mp (le_refl |x - v|)).1
    linarith

def mulTotal (v e k ke : ℚ) : ℚ := U * |v * k| + |k| * e + |v| * ke + e * ke

def mulLosses (v e k ke : ℚ) : ℚ := (1 + 2 * U) * lost (v * k) + lost (|k| * e) + lost (|v| * ke) + lost (e * ke)

/-- The error terms of a product make up for its underflows. -/
def MulCovered (slip : ℚ → ℚ) (v e k ke : ℚ) : Prop :=
  Covered 3 (S + 4) (mulLosses v e k ke) (slip (v * k)) (mulTotal v e k ke)

theorem product_error {κ k ke : ℚ} (hx : |x - v| ≤ e) (hκ : |κ - k| ≤ ke) :
    |x * κ - v * k| ≤ |k| * e + |v| * ke + e * ke := by
  have hsplit : x * κ - v * k = k * (x - v) + v * (κ - k) + (x - v) * (κ - k) := by ring
  have h₁ : |k * (x - v)| ≤ |k| * e := by
    rw [abs_mul]
    exact mul_le_mul_of_nonneg_left hx (abs_nonneg k)
  have h₂ : |v * (κ - k)| ≤ |v| * ke := by
    rw [abs_mul]
    exact mul_le_mul_of_nonneg_left hκ (abs_nonneg v)
  have h₃ : |(x - v) * (κ - k)| ≤ e * ke := by
    rw [abs_mul]
    exact mul_le_mul hx hκ (abs_nonneg _) ((abs_nonneg _).trans hx)
  rw [hsplit]
  calc |k * (x - v) + v * (κ - k) + (x - v) * (κ - k)|
      ≤ |k * (x - v)| + |v * (κ - k)| + |(x - v) * (κ - k)| :=
        (abs_add_le _ _).trans (add_le_add_left (abs_add_le _ _) _)
    _ ≤ _ := by linarith

theorem optional_under (h : Lawful A slip) {a : ℚ} (ha : 0 ≤ a) (ho : 0 ≤ errOf o) {m : ℚ} (hm : 1 ≤ m) :
    ∀ s, o.map (A.mul a) = some s → Under U (ETA / 2) m (lost (a * errOf o)) (a * errOf o) s := by
  intro s hs
  obtain ⟨e, rfl, rfl⟩ := map_eq_some_iff.mp hs
  exact (mul_under h ha ho).mono U_pos.le half_ETA_nonneg (mul_nonneg ha ho) hm le_rfl

theorem optional_none {a : ℚ} (h : o.map (A.mul a) = none) : a * errOf o = 0 := by
  rw [map_eq_none_iff.mp h, errOf, getD_none, mul_zero]

theorem mul_round (h : Lawful A slip) (v k : ℚ) : |A.mul v k - v * k| ≤ U * |v * k| + slip (v * k) := h.mul v k

theorem mulTerms_under (h : Lawful A slip) {k : ℚ} {e ke : Option ℚ} (he : 0 ≤ errOf e) (hke : 0 ≤ errOf ke) :
    Under U (ETA / 2) (S + 4) (mulLosses v (errOf e) k (errOf ke)) (mulTotal v (errOf e) k (errOf ke))
      (mulTerms A (A.mul v k) v e |k| ke) := by
  have hS : (0 : ℚ) ≤ S := by norm_num [S]
  have hslip : 2 * U * slip (v * k) ≤ 2 * U * (ETA / 2) :=
    mul_le_mul_of_nonneg_left (h.slip_le _) (by norm_num [U])
  have hround : 0 ≤ U * |v * k| := mul_nonneg U_pos.le (abs_nonneg _)
  have hfirst : 0 ≤ (1 + 2 * U) * lost (v * k) := mul_nonneg (by norm_num [U]) (lost_nonneg _)
  have h₀ := resultTerm_under h (h.slip_nonneg (v * k)) hslip (mul_round h v k)
  have hke' : 0 ≤ |k| * errOf e := mul_nonneg (abs_nonneg k) he
  have hv' : 0 ≤ |v| * errOf ke := mul_nonneg (abs_nonneg v) hke
  have h₁ := plusTerm_under h (by linarith) hfirst hround h₀ (lost_nonneg _) hke'
    (optional_under h (abs_nonneg k) he (by linarith)) optional_none
  have h₂ := plusTerm_under h (by linarith) (add_nonneg hfirst (lost_nonneg _)) (add_nonneg hround hke') h₁
    (lost_nonneg _) hv' (optional_under h (abs_nonneg v) hke (by linarith)) optional_none
  have hlast : ∀ s, (e.bind fun e => ke.map (A.mul e)) = some s →
      Under U (ETA / 2) (S + 1 + 1 + 1) (lost (errOf e * errOf ke)) (errOf e * errOf ke) s := by
    intro s hs
    obtain ⟨e', rfl, hs⟩ := bind_eq_some_iff.mp hs
    exact optional_under h he hke (by linarith) s hs
  have hnone : (e.bind fun e => ke.map (A.mul e)) = none → errOf e * errOf ke = 0 := by
    intro hs
    cases e with
    | none => exact zero_mul _
    | some e' => exact optional_none hs
  have h₃ := plusTerm_under h (by linarith) (add_nonneg (add_nonneg hfirst (lost_nonneg _)) (lost_nonneg _))
    (add_nonneg (add_nonneg hround hke') hv') h₂ (lost_nonneg _) (mul_nonneg he hke) hlast hnone
  have hcount : S + 1 + 1 + 1 + 1 = S + 4 := by ring
  rw [hcount] at h₃
  exact h₃

theorem mul_encloses (h : Lawful A slip) {κ k : ℚ} {e ke : Option ℚ} (hx : Encloses x v (errOf e))
    (hκ : |κ - k| ≤ errOf ke) (hcovered : MulCovered slip v (errOf e) k (errOf ke))
    (he : fin A (mulTerms A (A.mul v k) v e |k| ke) 3 = some e') : Encloses (x * κ) (A.mul v k) e' := by
  have hke : 0 ≤ errOf ke := (abs_nonneg _).trans hκ
  have hround : 0 ≤ U * |v * k| := mul_nonneg U_pos.le (abs_nonneg _)
  have h₁ : 0 ≤ |k| * errOf e := mul_nonneg (abs_nonneg k) hx.1
  have h₂ : 0 ≤ |v| * errOf ke := mul_nonneg (abs_nonneg v) hke
  have h₃ : 0 ≤ errOf e * errOf ke := mul_nonneg hx.1 hke
  have hT : 0 ≤ mulTotal v (errOf e) k (errOf ke) := by
    rw [mulTotal]
    linarith
  have hL : 0 ≤ mulLosses v (errOf e) k (errOf ke) := by
    have hfirst : 0 ≤ (1 + 2 * U) * lost (v * k) := mul_nonneg (by norm_num [U]) (lost_nonneg _)
    rw [mulLosses]
    linarith [lost_nonneg (|k| * errOf e), lost_nonneg (|v| * errOf ke), lost_nonneg (errOf e * errOf ke)]
  refine fin_encloses h (mulTerms_under h hx.1 hke) (by norm_num [S]) hL hT (h.slip_nonneg _) hcovered he ?_ ?_
  · have hproduct := product_error hx.abs_le hκ
    have hmul := mul_round h v k
    rw [abs_sub_comm] at hmul
    have hsplit : x * κ - A.mul v k = (v * k - A.mul v k) + (x * κ - v * k) := by ring
    rw [hsplit, mulTotal]
    linarith [abs_add_le (v * k - A.mul v k) (x * κ - v * k)]
  · refine size_of_round (z := v * k) ?_ (mul_round h v k)
    rw [mulTotal]
    linarith

def shift (f f32 : ℚ) : ℚ := |f - f32| / (|f| * |f32|)

/-- What float64 numbers with a nonzero, finite cast satisfy. -/
structure Divisor (A : Arithmetic) (f : ℚ) : Prop where
  cast_ne : A.cast f ≠ 0
  low : 1 / 2 ^ 300 ≤ |f| * |A.cast f|
  high : |f| * |A.cast f| ≤ 2 ^ 300
  apart : f = A.cast f ∨ 1 / 2 ^ 300 ≤ |f - A.cast f|

def divTotal (v e f f32 : ℚ) : ℚ := U * |v / f32| + e / |f| + |v| * shift f f32

def divLosses (v e f f32 : ℚ) : ℚ := (1 + 2 * U) * lost (v / f32) + lost (e / |f|) + lost (|v| * shift f f32)

/-- The divisor's cast is near it wherever there is an error to divide, and the error terms make up for the
underflows. -/
def DivCovered (A : Arithmetic) (slip : ℚ → ℚ) (v e f : ℚ) : Prop :=
  (e = 0 ∨ |A.cast f - f| ≤ U * |f|) ∧
    Covered 3 (S + 3) (divLosses v e f (A.cast f)) (slip (v / A.cast f)) (divTotal v e f (A.cast f))

variable {f : ℚ}

theorem Divisor.ne (hf : Divisor A f) : f ≠ 0 := by
  intro hzero
  have hlow := hf.low
  rw [hzero, abs_zero, zero_mul] at hlow
  exact absurd hlow (not_le.mpr (by positivity))

theorem shift_nonneg (f f32 : ℚ) : 0 ≤ shift f f32 := by
  rw [shift]
  positivity

theorem shift_le_relOf (h : Lawful A slip) (hf : Divisor A f) :
    (1 - 1 / 2 ^ 50) * shift f (A.cast f) ≤ relOf A f := by
  cases hf.apart with
  | inl hexact =>
    rw [shift, ← hexact, sub_self, abs_zero, zero_div, mul_zero, relOf]
    refine h.host_nonneg _ (div_nonneg (abs_nonneg _) (h.host_nonneg _ ?_))
    positivity
  | inr hapart =>
    have hd : NORMAL64 ≤ |f| * |A.cast f| := (NORMAL64_le (k := 300) (by norm_num)).trans hf.low
    refine le_host_div h (abs_nonneg _) hd ?_
    rw [le_div_iff₀ (NORMAL64_pos.trans_le hd)]
    have hsmall := NORMAL64_le (k := 601) (by norm_num)
    have hnormal : 0 ≤ 2 * NORMAL64 := by linarith [NORMAL64_pos]
    calc 2 * NORMAL64 * (|f| * |A.cast f|) ≤ 2 * NORMAL64 * 2 ^ 300 := mul_le_mul_of_nonneg_left hf.high hnormal
      _ ≤ 2 * (1 / 2 ^ 601) * 2 ^ 300 := by gcongr
      _ = 1 / 2 ^ 300 := by
        have hsplit : (2 : ℚ) ^ 601 = 2 * (2 ^ 300 * 2 ^ 300) := by rw [← pow_add, ← pow_succ']
        rw [hsplit]
        field_simp
      _ ≤ |f - A.cast f| := hapart

theorem div_round (h : Lawful A slip) (hf : Divisor A f) (v : ℚ) :
    |A.div v (A.cast f) - v / A.cast f| ≤ U * |v / A.cast f| + slip (v / A.cast f) := h.div v _ hf.cast_ne

theorem quotient_error {f32 : ℚ} (hf : f ≠ 0) (hf32 : f32 ≠ 0) (hx : |x - v| ≤ e) :
    |x / f - v / f32| ≤ e / |f| + |v| * shift f f32 := by
  have hsplit : x / f - v / f32 = (x - v) / f + v * ((f32 - f) / (f * f32)) := by
    field_simp
    ring
  have h₁ : |(x - v) / f| ≤ e / |f| := by
    rw [abs_div]
    gcongr
  have h₂ : |v * ((f32 - f) / (f * f32))| = |v| * shift f f32 := by
    rw [abs_mul, abs_div, abs_mul, abs_sub_comm, shift]
  rw [hsplit]
  linarith [abs_add_le ((x - v) / f) (v * ((f32 - f) / (f * f32)))]

variable (h : Lawful A slip) (hf : Divisor A f)

include h hf

theorem quotient_under (he : 0 ≤ e) (hnear : e = 0 ∨ |A.cast f - f| ≤ U * |f|) :
    Under U (ETA / 2) 2 (lost (e / |f|)) (e / |f|) (A.div e |A.cast f|) := by
  have hnonneg := h.div_nonneg e |A.cast f| he (abs_nonneg _)
  have hfpos : 0 < |f| := abs_pos.mpr hf.ne
  have hcpos : 0 < |A.cast f| := abs_pos.mpr hf.cast_ne
  by_cases hzero : e = 0
  · have hquot : e / |f| = 0 := by rw [hzero, zero_div]
    rw [hquot, lost, if_pos rfl]
    exact Under.zero hnonneg
  · have hcast : |A.cast f| ≤ (1 + U) * |f| := by
      have hclose := hnear.resolve_left hzero
      linarith [abs_sub_abs_le_abs_sub (A.cast f) f]
    have hquot : (1 - U) * (e / |f|) ≤ e / |A.cast f| := by
      rw [le_div_iff₀ hcpos]
      calc (1 - U) * (e / |f|) * |A.cast f| ≤ (1 - U) * (e / |f|) * ((1 + U) * |f|) := by
            refine mul_le_mul_of_nonneg_left hcast (mul_nonneg (by norm_num [U]) (by positivity))
        _ = (1 - U * U) * (e / |f| * |f|) := by ring
        _ ≤ e := by
          rw [div_mul_cancel₀ e hfpos.ne']
          exact mul_le_of_le_one_left he (by norm_num [U])
    have hround := (abs_le.mp (h.quotients (x := e) hcpos.ne')).1
    have hpos : 0 ≤ e / |A.cast f| := by positivity
    rw [abs_of_nonneg hpos] at hround
    have hlost : lost (e / |f|) = 1 := if_neg (div_ne_zero hzero hfpos.ne')
    refine ⟨hnonneg, ?_⟩
    have hscaled := mul_le_mul_of_nonneg_left hquot (by norm_num [U] : (0 : ℚ) ≤ 1 - U)
    have hsquare : 0 ≤ U * U * (e / |f|) := mul_nonneg (by norm_num [U]) (by positivity)
    rw [hlost]
    linarith

theorem shift_under :
    Under U (ETA / 2) 2 (lost (|v| * shift f (A.cast f))) (|v| * shift f (A.cast f))
      (scale A (up32 A (relOf A f)) |v|) := by
  have hshift := shift_nonneg f (A.cast f)
  have hup : (1 - 1 * U) * shift f (A.cast f) ≤ up32 A (relOf A f) := by
    have hrel := shift_le_relOf h hf
    have hle := le_up32 h (relOf A f)
    have hconst : (1 - 1 * U) * shift f (A.cast f) ≤ (1 - 1 / 2 ^ 50) * shift f (A.cast f) :=
      mul_le_mul_of_nonneg_right (by norm_num [U]) hshift
    linarith
  have hproduct := (Under.exact (u := U) (h := ETA / 2) (abs_nonneg v)).times h.products U_pos.le U_le_one
    half_ETA_nonneg le_rfl (s := 1) zero_le_one (by norm_num [U]) le_rfl (abs_nonneg v) hshift hup
  rw [scale, cast_up32 h, lost]
  split
  · next hzero =>
    rw [hzero]
    exact Under.zero hproduct.1
  · refine hproduct.mono U_pos.le half_ETA_nonneg (mul_nonneg (abs_nonneg v) hshift) (by norm_num) ?_
    rw [zero_mul, zero_add]

theorem shift_eq_zero (hzero : relOf A f = 0) : shift f (A.cast f) = 0 := by
  have hrel := shift_le_relOf h hf
  rw [hzero] at hrel
  refine le_antisymm (not_lt.mp fun hpos => ?_) (shift_nonneg _ _)
  linarith

theorem divTerms_under {e : Option ℚ} (he : 0 ≤ errOf e) (hnear : errOf e = 0 ∨ |A.cast f - f| ≤ U * |f|) :
    Under U (ETA / 2) (S + 3) (divLosses v (errOf e) f (A.cast f)) (divTotal v (errOf e) f (A.cast f))
      (divTerms A (A.div v (A.cast f)) v e f) := by
  have hS : (1 : ℚ) ≤ S := by norm_num [S]
  have hslip : 2 * U * slip (v / A.cast f) ≤ 2 * U * (ETA / 2) :=
    mul_le_mul_of_nonneg_left (h.slip_le _) (by norm_num [U])
  have hround : 0 ≤ U * |v / A.cast f| := mul_nonneg U_pos.le (abs_nonneg _)
  have hfirst : 0 ≤ (1 + 2 * U) * lost (v / A.cast f) := mul_nonneg (by norm_num [U]) (lost_nonneg _)
  have hquot : 0 ≤ errOf e / |f| := div_nonneg he (abs_nonneg f)
  have hshift : 0 ≤ |v| * shift f (A.cast f) := mul_nonneg (abs_nonneg v) (shift_nonneg _ _)
  have h₀ := resultTerm_under h (h.slip_nonneg (v / A.cast f)) hslip (div_round h hf v)
  have hdivided : ∀ s, (e.map fun e => A.div e |A.cast f|) = some s →
      Under U (ETA / 2) (S + 1) (lost (errOf e / |f|)) (errOf e / |f|) s := by
    intro s hs
    obtain ⟨e', rfl, rfl⟩ := map_eq_some_iff.mp hs
    exact (quotient_under h hf he hnear).mono U_pos.le half_ETA_nonneg hquot (by linarith) le_rfl
  have hexact : (e.map fun e => A.div e |A.cast f|) = none → errOf e / |f| = 0 := by
    intro hnone
    rw [map_eq_none_iff.mp hnone, errOf, getD_none, zero_div]
  have h₁ := plusTerm_under h (by linarith) hfirst hround h₀ (lost_nonneg _) hquot hdivided hexact
  have hmoved : ∀ s, (if relOf A f = 0 then none else some (scale A (up32 A (relOf A f)) |v|)) = some s →
      Under U (ETA / 2) (S + 1 + 1) (lost (|v| * shift f (A.cast f))) (|v| * shift f (A.cast f)) s := by
    intro s hs
    split at hs
    · cases hs
    · rw [Option.some.injEq] at hs
      rw [← hs]
      exact (shift_under h hf).mono U_pos.le half_ETA_nonneg hshift (by linarith) le_rfl
  have hsame : (if relOf A f = 0 then none else some (scale A (up32 A (relOf A f)) |v|)) = none →
      |v| * shift f (A.cast f) = 0 := by
    intro hnone
    split at hnone
    · next hzero => rw [shift_eq_zero h hf hzero, mul_zero]
    · cases hnone
  have h₂ := plusTerm_under h (by linarith) (add_nonneg hfirst (lost_nonneg _)) (add_nonneg hround hquot) h₁
    (lost_nonneg _) hshift hmoved hsame
  have hcount : S + 1 + 1 + 1 = S + 3 := by ring
  rw [hcount] at h₂
  exact h₂

theorem div_encloses {e : Option ℚ} (hx : Encloses x v (errOf e)) (hcovered : DivCovered A slip v (errOf e) f)
    (he : fin A (divTerms A (A.div v (A.cast f)) v e f) 3 = some e') :
    Encloses (x / f) (A.div v (A.cast f)) e' := by
  have hround : 0 ≤ U * |v / A.cast f| := mul_nonneg U_pos.le (abs_nonneg _)
  have hquot : 0 ≤ errOf e / |f| := div_nonneg hx.1 (abs_nonneg f)
  have hshift : 0 ≤ |v| * shift f (A.cast f) := mul_nonneg (abs_nonneg v) (shift_nonneg _ _)
  have hT : 0 ≤ divTotal v (errOf e) f (A.cast f) := add_nonneg (add_nonneg hround hquot) hshift
  have hL : 0 ≤ divLosses v (errOf e) f (A.cast f) :=
    add_nonneg (add_nonneg (mul_nonneg (by norm_num [U]) (lost_nonneg _)) (lost_nonneg _)) (lost_nonneg _)
  refine fin_encloses h (divTerms_under h hf hx.1 hcovered.1) (by norm_num [S]) hL hT (h.slip_nonneg _) hcovered.2
    he ?_ ?_
  · have hquotient := quotient_error hf.ne hf.cast_ne hx.abs_le
    have hdiv := div_round h hf v
    rw [abs_sub_comm] at hdiv
    have hsplit : x / f - A.div v (A.cast f) =
        (v / A.cast f - A.div v (A.cast f)) + (x / f - v / A.cast f) := by ring
    rw [hsplit, divTotal]
    linarith [abs_add_le (v / A.cast f - A.div v (A.cast f)) (x / f - v / A.cast f)]
  · refine size_of_round (z := v / A.cast f) ?_ (div_round h hf v)
    rw [divTotal]
    linarith

end Onnxsim.Rigorous.Kernels
