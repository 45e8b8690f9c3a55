import Mathlib.Algebra.Order.Group.MinMax
import Onnxsim.Lib.Roundings

namespace Onnxsim.Rigorous.Float32

open Lib.Roundings

section

def U : ℚ := 1 / 2 ^ 24

def ETA : ℚ := 1 / 2 ^ 149

def ETA64 : ℚ := 1 / 2 ^ 1074

def BLOCK : Nat := 128

/-- What the hardware and the libraries compute: the float32 operations on tensors, the cast of a float64 to
float32 and its neighbours, and the rounding of the float64 arithmetic on the host. -/
structure Arithmetic where
  add : ℚ → ℚ → ℚ
  mul : ℚ → ℚ → ℚ
  div : ℚ → ℚ → ℚ
  cast : ℚ → ℚ
  next : ℚ → ℚ
  prev : ℚ → ℚ
  host : ℚ → ℚ
  hostSub : ℚ → ℚ → ℚ

/-- The error model. `slip z` is what a product or quotient of the exact value `z` may lose to underflow. -/
structure Lawful (A : Arithmetic) (slip : ℚ → ℚ) : Prop where
  slip_nonneg : ∀ z, 0 ≤ slip z
  slip_le : ∀ z, slip z ≤ ETA / 2
  add : Relative U A.add
  mul : ∀ x y, |A.mul x y - x * y| ≤ U * |x * y| + slip (x * y)
  div : ∀ x y, y ≠ 0 → |A.div x y - x / y| ≤ U * |x / y| + slip (x / y)
  mul_nonneg : ∀ x y, 0 ≤ x → 0 ≤ y → 0 ≤ A.mul x y
  div_nonneg : ∀ x y, 0 ≤ x → 0 ≤ y → 0 ≤ A.div x y
  cast : ∀ x, |A.cast x - x| ≤ U * |x| + ETA / 2
  cast_nonneg : ∀ x, 0 ≤ x → 0 ≤ A.cast x
  cast_cast : ∀ x, A.cast (A.cast x) = A.cast x
  cast_next : ∀ x, A.cast (A.next (A.cast x)) = A.next (A.cast x)
  le_next : ∀ x, A.cast x < x → x ≤ A.next (A.cast x)
  prev_le : ∀ x, x < A.cast x → A.prev (A.cast x) ≤ x
  host : ∀ x, |A.host x - x| ≤ |x| / 2 ^ 53 + ETA64 / 2
  host_nonneg : ∀ x, 0 ≤ x → 0 ≤ A.host x
  host_zero : A.host 0 = 0
  host_mono : ∀ x y, x ≤ y → A.host x ≤ A.host y
  hostSub : ∀ x y, |A.hostSub x y - (x - y)| ≤ |x - y| / 2 ^ 53
  hostSub_le : ∀ x y, 0 ≤ y → A.hostSub x y ≤ x

variable (A : Arithmetic)

def UP : ℚ := A.host (U / A.host (1 - U))

/-- `none` stands for `inf`. -/
def gamma (n : Nat) : Option ℚ :=
  if 1 / 2 ≤ n * U then none else some (A.host (n * U / A.host (1 - n * U)))

def infl (n : Nat) : Option ℚ := (gamma A (n + 8)).map fun g => A.host (1 + 2 * g)

def scale (c x : ℚ) : ℚ := A.mul x (A.cast c)

/-- Make a computed error bound safe: inflate for its own rounding, floor for underflow. -/
def fin (e : ℚ) (n : Nat) : Option ℚ := (infl A n).map fun c => A.add (scale A c e) ETA

def up32 (x : ℚ) : ℚ := if A.cast x < x then A.next (A.cast x) else A.cast x

def down32 (x : ℚ) : ℚ := if x < A.cast x then A.prev (A.cast x) else A.cast x

end

variable {A : Arithmetic} {slip : ℚ → ℚ}

theorem U_pos : 0 < U := by norm_num [U]

theorem U_le_one : U ≤ 1 := by norm_num [U]

theorem ETA_pos : 0 < ETA := by norm_num [ETA]

theorem half_ETA_nonneg : 0 ≤ ETA / 2 := by linarith [ETA_pos]

theorem Lawful.products (h : Lawful A slip) : Products U (ETA / 2) A.mul where
  nonneg := h.mul_nonneg
  error x y := (h.mul x y).trans (by linarith [h.slip_le (x * y)])

variable {x : ℚ} {n : Nat}

theorem Lawful.quotients (h : Lawful A slip) {y : ℚ} (hy : y ≠ 0) : |A.div x y - x / y| ≤ U * |x / y| + ETA / 2 := (h.div x y hy).trans (by linarith [h.slip_le (x / y)])

theorem le_up32 (h : Lawful A slip) (x : ℚ) : x ≤ up32 A x := by
  rw [up32]
  split
  · next hlt => exact h.le_next x hlt
  · next hle => exact not_lt.mp hle

theorem cast_up32 (h : Lawful A slip) (x : ℚ) : A.cast (up32 A x) = up32 A x := by
  rw [up32]
  split
  · exact h.cast_next x
  · exact h.cast_cast x

theorem down32_le (h : Lawful A slip) (x : ℚ) : down32 A x ≤ x := by
  rw [down32]
  split
  · next hlt => exact h.prev_le x hlt
  · next hle => exact not_lt.mp hle

theorem ETA64_pos : 0 < ETA64 := by rw [ETA64]; positivity

def NORMAL64 : ℚ := ETA64 * 2 ^ 52

theorem NORMAL64_pos : 0 < NORMAL64 := mul_pos ETA64_pos (by norm_num)

theorem NORMAL64_le {k : Nat} (hk : k ≤ 1022) : NORMAL64 ≤ 1 / 2 ^ k := by
  have hsplit : (2 : ℚ) ^ 1074 = 2 ^ 52 * 2 ^ 1022 := by rw [← pow_add]
  rw [NORMAL64, ETA64, hsplit, one_div, mul_inv, mul_right_comm, inv_mul_cancel₀ (by norm_num), one_mul, ← one_div]
  exact one_div_pow_le_one_div_pow_of_le one_le_two hk

theorem host_near (h : Lawful A slip) (hx : NORMAL64 ≤ x) :
    (1 - 1 / 2 ^ 52) * x ≤ A.host x ∧ A.host x ≤ (1 + 1 / 2 ^ 52) * x := by
  have hbound := abs_le.mp (h.host x)
  rw [abs_of_nonneg (NORMAL64_pos.le.trans hx)] at hbound
  rw [NORMAL64] at hx
  constructor
  · linarith [hbound.1]
  · linarith [hbound.2]

theorem le_host_div (h : Lawful A slip) {a d : ℚ} (ha : 0 ≤ a) (hd : NORMAL64 ≤ d) (hq : 2 * NORMAL64 ≤ a / d) :
    (1 - 1 / 2 ^ 50) * (a / d) ≤ A.host (a / A.host d) := by
  have hdpos : 0 < d := NORMAL64_pos.trans_le hd
  obtain ⟨hlow, hhigh⟩ := host_near h hd
  have hhost : 0 < A.host d := lt_of_lt_of_le (by positivity) hlow
  have hdivided : (1 - 1 / 2 ^ 52) * (a / d) ≤ a / A.host d := by
    rw [le_div_iff₀ hhost]
    calc (1 - 1 / 2 ^ 52) * (a / d) * A.host d
        ≤ (1 - 1 / 2 ^ 52) * (a / d) * ((1 + 1 / 2 ^ 52) * d) := by gcongr
      _ = (1 - 1 / 2 ^ 104) * (a / d * d) := by ring
      _ ≤ a := by
        rw [div_mul_cancel₀ a hdpos.ne']
        linarith
  have hfinal := (host_near h (x := a / A.host d) (by linarith [NORMAL64_pos])).1
  have hpos : 0 ≤ a / d := div_nonneg ha hdpos.le
  calc (1 - 1 / 2 ^ 50) * (a / d) ≤ (1 - 1 / 2 ^ 52) * ((1 - 1 / 2 ^ 52) * (a / d)) := by linarith
    _ ≤ (1 - 1 / 2 ^ 52) * (a / A.host d) := by gcongr
    _ ≤ A.host (a / A.host d) := hfinal

theorem NORMAL64_le_U : 2 * NORMAL64 ≤ U := by
  have h := NORMAL64_le (k := 25) (by norm_num)
  rw [U]
  linarith

/-- The roundings that a constant of the host loses on its way into a tensor. -/
def S : ℚ := 17 / 16

variable {c g : ℚ}

theorem cast_near (h : Lawful A slip) {c' : ℚ} (hc : U ≤ c) (hc' : (1 - 1 / 2 ^ 40) * c ≤ c') :
    (1 - S * U) * c ≤ A.cast c' := by
  have hcpos : 0 < c := U_pos.trans_le hc
  have hc'pos : 0 ≤ c' := le_trans (by positivity) hc'
  have hbound := (abs_le.mp (h.cast c')).1
  rw [abs_of_nonneg hc'pos] at hbound
  have hscaled := mul_le_mul_of_nonneg_left hc' (by norm_num [U] : (0 : ℚ) ≤ 1 - U)
  have hsmall : ETA / 2 ≤ 1 / 2 ^ 30 * U := by norm_num [ETA, U]
  have hconst : (1 - S * U) + 1 / 2 ^ 30 ≤ (1 - U) * (1 - 1 / 2 ^ 40) := by norm_num [S, U]
  have hconst' := mul_le_mul_of_nonneg_right hconst hcpos.le
  linarith

theorem UP_near (h : Lawful A slip) : (1 - S * U) * (U / (1 - U)) ≤ A.cast (UP A) := by
  refine cast_near h (by norm_num [U]) ?_
  have hsmall := NORMAL64_le_U
  have hle : U ≤ U / (1 - U) := by norm_num [U]
  have hdiv := le_host_div h (a := U) (d := 1 - U) U_pos.le (by norm_num [U] at hsmall ⊢; linarith) (hsmall.trans hle)
  have hpos : (0 : ℚ) ≤ U / (1 - U) := by norm_num [U]
  rw [UP]
  linarith

/-- Higham's `gamma_n`. -/
def highamGamma (n : Nat) : ℚ := n * U / (1 - n * U)

theorem gamma_bound (hg : gamma A n = some g) : n * U < 1 / 2 := by
  rw [gamma] at hg
  split at hg
  · cases hg
  · next hlt => exact not_le.mp hlt

theorem highamGamma_nonneg (hn : n * U < 1 / 2) : 0 ≤ highamGamma n :=
  div_nonneg (mul_nonneg (Nat.cast_nonneg n) U_pos.le) (by linarith)

theorem gamma_near (h : Lawful A slip) (hg : gamma A n = some g) : (1 - 1 / 2 ^ 50) * highamGamma n ≤ g := by
  have hbound := gamma_bound hg
  rw [gamma, if_neg (not_le.mpr hbound), Option.some.injEq] at hg
  rw [← hg, highamGamma]
  cases n with
  | zero =>
    have hzero : ((0 : Nat) : ℚ) * U = 0 := by rw [Nat.cast_zero, zero_mul]
    rw [hzero, zero_div, mul_zero, zero_div]
    exact h.host_nonneg 0 le_rfl
  | succ n =>
    have hn : U ≤ (n + 1 : Nat) * U := by
      have hone : (1 : ℚ) ≤ (n + 1 : Nat) := by exact_mod_cast Nat.succ_le_succ (Nat.zero_le n)
      exact le_mul_of_one_le_left U_pos.le hone
    have hsmall := NORMAL64_le_U
    have hone : U ≤ 1 / 2 := by norm_num [U]
    refine le_host_div h (U_pos.le.trans hn) (by linarith [NORMAL64_pos]) (hsmall.trans ?_)
    rw [le_div_iff₀ (by linarith)]
    have hlost := mul_nonneg U_pos.le (U_pos.le.trans hn)
    linarith

theorem U_le_highamGamma (hn : 0 < n) (hbound : n * U < 1 / 2) : U ≤ highamGamma n := by
  have hone : (1 : ℚ) ≤ n := by exact_mod_cast hn
  have hmul : U ≤ n * U := le_mul_of_one_le_left U_pos.le hone
  rw [highamGamma, le_div_iff₀ (by linarith)]
  have hlost := mul_nonneg U_pos.le (U_pos.le.trans hmul)
  linarith

theorem highamGamma_le_one (hbound : n * U < 1 / 2) : highamGamma n ≤ 1 := by
  rw [highamGamma, div_le_one (by linarith)]
  linarith

theorem cast_gamma (h : Lawful A slip) (hn : 0 < n) (hg : gamma A n = some g) :
    (1 - S * U) * highamGamma n ≤ A.cast g := by
  have hbound := gamma_bound hg
  refine cast_near h (U_le_highamGamma hn hbound) ?_
  have := gamma_near h hg
  have := highamGamma_nonneg hbound
  linarith

/-- What inflates the errors of `n` terms. -/
def inflation (n : Nat) : ℚ := 1 + 2 * highamGamma (n + 8)

theorem cast_infl (h : Lawful A slip) (hc : infl A n = some c) :
    (1 - S * U) * inflation n ≤ A.cast c ∧ (n + 8 : Nat) * U < 1 / 2 := by
  obtain ⟨g, hg, rfl⟩ := Option.map_eq_some_iff.mp hc
  have hbound := gamma_bound hg
  have hnonneg := highamGamma_nonneg hbound
  have hnear := gamma_near h hg
  refine ⟨cast_near h ?_ ?_, hbound⟩
  · rw [inflation]
    linarith [U_le_one]
  · have hhost := (host_near h (x := 1 + 2 * g) (by linarith [U_le_one, NORMAL64_le_U, NORMAL64_pos])).1
    rw [inflation]
    linarith

end Onnxsim.Rigorous.Float32

namespace Onnxsim.Rigorous.Covering

open Lib.Roundings Rigorous.Float32

/-- What a computed error leaves over for the subtraction in `lower_to_numpy`. -/
def SLACK : ℚ := 1 / 2 ^ 50

/-- The value `v` with the error `e` stands for `x`. -/
def Encloses (x v e : ℚ) : Prop := 0 ≤ e ∧ (x = v ∨ |x - v| + SLACK * (|v| + e) ≤ e)

variable {x v e e' : ℚ}

theorem Encloses.exact (v : ℚ) : Encloses v v 0 := ⟨le_rfl, .inl rfl⟩

theorem Encloses.abs_le (h : Encloses x v e) : |x - v| ≤ e := by
  cases h.2 with
  | inl heq =>
    rw [heq, sub_self, abs_zero]
    exact h.1
  | inr hslack =>
    have hpos : 0 ≤ SLACK * (|v| + e) := mul_nonneg (by norm_num [SLACK]) (add_nonneg (abs_nonneg v) h.1)
    linarith

theorem Encloses.mono (h : Encloses x v e) (he : e ≤ e') : Encloses x v e' := by
  refine ⟨h.1.trans he, h.2.imp_right fun hslack => ?_⟩
  have hgrow : SLACK * (e' - e) ≤ e' - e := mul_le_of_le_one_left (by linarith) (by norm_num [SLACK])
  linarith

theorem Encloses.neg (h : Encloses x v e) : Encloses (-x) (-v) e := by
  refine ⟨h.1, h.2.imp (congrArg (- ·)) fun hslack => ?_⟩
  have hdist : |-x - -v| = |x - v| := by rw [neg_sub_neg, abs_sub_comm]
  rw [hdist, abs_neg]
  exact hslack

theorem Encloses.select {f : ℚ → ℚ} (hf : ∀ x y, |f x - f y| ≤ |x - y|) (hzero : ∀ x, |f x| ≤ |x|)
    (h : Encloses x v e) : Encloses (f x) (f v) e := by
  refine ⟨h.1, h.2.imp (congrArg f) fun hslack => ?_⟩
  have hscaled : SLACK * (|f v| + e) ≤ SLACK * (|v| + e) :=
    mul_le_mul_of_nonneg_left (by linarith [hzero v]) (by norm_num [SLACK])
  linarith [hf x v]

theorem abs_max_zero_le (x : ℚ) : |max x 0| ≤ |x| := by
  rw [abs_of_nonneg (le_max_right x 0)]
  exact max_le (le_abs_self x) (abs_nonneg x)

theorem abs_min_zero_le (x : ℚ) : |min x 0| ≤ |x| := by
  rw [abs_of_nonpos (min_le_right x 0)]
  exact neg_le.mp (le_min (neg_abs_le x) (neg_nonpos.mpr (abs_nonneg x)))

/-- The floor and the inflation of `_fin(_, n)` make up for `m` roundings of the error terms `T`, for the
underflows `L` on the way to them and for the underflow `W` of the value itself. -/
def Covered (n : Nat) (m L W T : ℚ) : Prop :=
  T + W ≤ (1 - 4 * U) * ETA ∨
    (inflation n * L - 1 + U) * (ETA / 2) + (1 + U) * W ≤ (inflation n * (1 - (m + S + 2) * U) - 1 - U) * T

variable {A : Arithmetic} {slip : ℚ → ℚ} {n : Nat} {m L W T t : ℚ}

theorem inflation_nonneg {n : Nat} (hn : (n + 8 : Nat) * U < 1 / 2) : 0 ≤ inflation n := by
  rw [inflation]
  linarith [highamGamma_nonneg hn]

variable (h : Lawful A slip) (ht : Under U (ETA / 2) m L T t) (hm : 0 ≤ m) (hL : 0 ≤ L) (hT : 0 ≤ T) (hW : 0 ≤ W)
  (hcovered : Covered n m L W T) (he : fin A t n = some e)

include h ht hm hL hT hW hcovered he

/-- What `_fin` makes of the error terms is at least the terms with the value's underflow, and a bit more. -/
theorem fin_covers : 0 ≤ e ∧ (1 + U / 2) * T + (1 + SLACK) * W ≤ (1 - SLACK) * e := by
  obtain ⟨c, hc, rfl⟩ := Option.map_eq_some_iff.mp he
  obtain ⟨hcast, hn⟩ := cast_infl h hc
  have hETA : 2 * (ETA / 2) = ETA := by ring
  obtain ⟨hfloor, hinflated⟩ := ht.inflate h.add h.products U_pos.le U_le_one half_ETA_nonneg hm
    (by norm_num [S]) (by norm_num [S, U]) hL hT (inflation_nonneg hn) hcast
  rw [hETA] at hfloor hinflated
  rw [scale]
  have hfloor0 : 0 ≤ (1 - U) * ETA := mul_nonneg (by linarith [U_le_one]) ETA_pos.le
  refine ⟨hfloor0.trans hfloor, ?_⟩
  cases hcovered with
  | inl hsmall =>
    have hscaled : (1 - SLACK) * ((1 - U) * ETA) ≤ (1 - SLACK) * A.add (A.mul t (A.cast c)) ETA :=
      mul_le_mul_of_nonneg_left hfloor (by norm_num [SLACK])
    have hterms : (1 + U / 2) * T + (1 + SLACK) * W ≤ (1 + U / 2) * (T + W) := by
      have hslack : SLACK * W ≤ U / 2 * W := mul_le_mul_of_nonneg_right (by norm_num [SLACK, U]) hW
      linarith
    have hbound : (1 + U / 2) * (T + W) ≤ (1 + U / 2) * ((1 - 4 * U) * ETA) :=
      mul_le_mul_of_nonneg_left hsmall (by linarith [U_pos])
    have hconst : (1 + U / 2) * ((1 - 4 * U) * ETA) ≤ (1 - SLACK) * ((1 - U) * ETA) := by
      norm_num [U, SLACK, ETA]
    linarith
  | inr hlarge =>
    have hbound : (1 + U) * (T + W) ≤ A.add (A.mul t (A.cast c)) ETA := by linarith
    have hscaled : (1 - SLACK) * ((1 + U) * (T + W)) ≤ (1 - SLACK) * A.add (A.mul t (A.cast c)) ETA :=
      mul_le_mul_of_nonneg_left hbound (by norm_num [SLACK])
    have hT' : (1 + U / 2) * T ≤ (1 - SLACK) * (1 + U) * T :=
      mul_le_mul_of_nonneg_right (by norm_num [U, SLACK]) hT
    have hW' : (1 + SLACK) * W ≤ (1 - SLACK) * (1 + U) * W :=
      mul_le_mul_of_nonneg_right (by norm_num [U, SLACK]) hW
    linarith

theorem fin_encloses (herror : |x - v| ≤ T + W) (hsize : U * |v| ≤ 2 * T + U * W) : Encloses x v e := by
  obtain ⟨he0, hcover⟩ := fin_covers h ht hm hL hT hW hcovered he
  refine ⟨he0, .inr ?_⟩
  have hv : SLACK * |v| ≤ U / 2 * T + SLACK * W := by
    have hconst : SLACK = U * (U / 4) := by norm_num [SLACK, U]
    have hscaled := mul_le_mul_of_nonneg_left hsize (by norm_num [U] : (0 : ℚ) ≤ U / 4)
    rw [hconst]
    linarith
  linarith

theorem le_fin : T ≤ e := by
  obtain ⟨he0, hcover⟩ := fin_covers h ht hm hL hT hW hcovered he
  have hU : 0 ≤ U / 2 * T := mul_nonneg (by norm_num [U]) hT
  have hslack : 0 ≤ SLACK * e := mul_nonneg (by norm_num [SLACK]) he0
  have hW' : 0 ≤ (1 + SLACK) * W := mul_nonneg (by norm_num [SLACK]) hW
  linarith

omit h ht hm hL hT hW hcovered he

theorem covered_of_one {m T : ℚ} (hm : m ≤ S + 4) (hT : 0 ≤ T) : Covered 2 m 1 0 T := by
  by_cases hsmall : T + 0 ≤ (1 - 4 * U) * ETA
  · exact .inl hsmall
  · refine .inr ?_
    have hc : 0 ≤ inflation 2 := by norm_num [inflation, highamGamma, U]
    have hfactor : (inflation 2 * (1 - (S + 4 + S + 2) * U) - 1 - U) ≤ inflation 2 * (1 - (m + S + 2) * U) - 1 - U := by
      have hround := mul_le_mul_of_nonneg_left (mul_le_mul_of_nonneg_right hm U_pos.le) hc
      linarith
    have hconst : (inflation 2 * 1 - 1 + U) * (ETA / 2) + (1 + U) * 0 ≤
        (inflation 2 * (1 - (S + 4 + S + 2) * U) - 1 - U) * ((1 - 4 * U) * ETA) := by
      norm_num [inflation, highamGamma, U, S, ETA]
    have hpos : 0 ≤ inflation 2 * (1 - (S + 4 + S + 2) * U) - 1 - U := by
      norm_num [inflation, highamGamma, U, S]
    rw [add_zero, not_le] at hsmall
    calc (inflation 2 * 1 - 1 + U) * (ETA / 2) + (1 + U) * 0
        ≤ (inflation 2 * (1 - (S + 4 + S + 2) * U) - 1 - U) * ((1 - 4 * U) * ETA) := hconst
      _ ≤ (inflation 2 * (1 - (S + 4 + S + 2) * U) - 1 - U) * T := mul_le_mul_of_nonneg_left hsmall.le hpos
      _ ≤ _ := mul_le_mul_of_nonneg_right hfactor hT

end Onnxsim.Rigorous.Covering
