import Mathlib.Data.Real.Basic
import Onnxsim.Rigorous.Computations

namespace Onnxsim.Rigorous.Lines

open Rigorous.Float32 Operations

section

/-- Two lines for each element of an activation: one below it on its box and one above. -/
structure Relaxation where
  a_l : Index → ℚ
  b_l : Index → ℚ
  a_u : Index → ℚ
  b_u : Index → ℚ

inductive Kind where
  | relu
  | other

def EPS64 : ℚ := 1 / 2 ^ 52

variable (A : Arithmetic)

def radius (lo hi : ℚ) : ℚ := max |lo| |hi|

/-- What rounding the slope may move the line by on the box. -/
def slopeShift (a rad : ℚ) : ℚ := A.host (|a - A.cast a| * rad)

def widen (b extra sign : ℚ) : ℚ :=
  A.host (A.host (b + sign * extra) + A.host (sign * 4 * EPS64 * A.host (|b| + extra)))

/-- `sound_lines_f32`. -/
def soundLines (kind : Kind) (r : Relaxation) (lo hi : Index → ℚ) : Relaxation where
  a_u i := A.cast (r.a_u i)
  b_u i := up32 A (widen A (r.b_u i) (slopeShift A (r.a_u i) (radius (lo i) (hi i))) 1)
  a_l i :=
    match kind with
    | .relu => r.a_l i
    | .other => A.cast (r.a_l i)
  b_l i :=
    match kind with
    | .relu => r.b_l i
    | .other => down32 A (widen A (r.b_l i) (slopeShift A (r.a_l i) (radius (lo i) (hi i))) (-1))

end

variable {A : Arithmetic} {slip : ℚ → ℚ} {b X B : ℚ}

/-- The intercept is a float64 number, and rounding the slope moves the line not at all or, together with the
intercept's size, by a number that is not tiny. -/
def LineSafe (A : Arithmetic) (a b rad : ℚ) : Prop :=
  A.host b = b ∧ (|a - A.cast a| * rad = 0 ∨ NORMAL64 ≤ |b| + |a - A.cast a| * rad)

theorem host_close (h : Lawful A slip) (hB : NORMAL64 ≤ B) (x : ℚ) : |A.host x - x| ≤ (|x| + B) / 2 ^ 53 := by
  have hbound := h.host x
  rw [NORMAL64] at hB
  linarith

variable {s a rad : ℚ}

theorem widen_error (h : Lawful A slip) (hX : 0 ≤ X) (hB : NORMAL64 ≤ |b| + X) (hs : s = 1 ∨ s = -1) :
    |widen A b (A.host X) s - (b + s * X + s * (8 / 2 ^ 53 * (|b| + X)))| ≤ 15 / 2 ^ 54 * (|b| + X) := by
  have hB0 : 0 ≤ |b| + X := add_nonneg (abs_nonneg b) hX
  generalize hE : A.host X = E
  have hE0 : 0 ≤ E := hE ▸ h.host_nonneg X hX
  have h₁ := host_close h hB X
  rw [hE, abs_of_nonneg hX] at h₁
  obtain ⟨h₁l, h₁u⟩ := abs_le.mp h₁
  have hb := abs_nonneg b
  have hsum : 0 ≤ |b| + E := add_nonneg hb hE0
  generalize hM : A.host (|b| + E) = M
  have hM0 : 0 ≤ M := hM ▸ h.host_nonneg _ hsum
  have h₂ := host_close h hB (|b| + E)
  rw [hM, abs_of_nonneg hsum] at h₂
  obtain ⟨h₂l, h₂u⟩ := abs_le.mp h₂
  have hsE : |b + s * E| ≤ |b| + E := by
    refine (abs_add_le b (s * E)).trans (le_of_eq ?_)
    cases hs with
    | inl hone => rw [hone, one_mul, abs_of_nonneg hE0]
    | inr hneg => rw [hneg, neg_one_mul, abs_neg, abs_of_nonneg hE0]
  have hsM : |s * 4 * EPS64 * M| = 8 / 2 ^ 53 * M := by
    cases hs with
    | inl hone =>
      rw [hone, abs_of_nonneg (mul_nonneg (by norm_num [EPS64]) hM0)]
      norm_num [EPS64]
    | inr hneg =>
      have hsign : -1 * 4 * EPS64 * M = -(8 / 2 ^ 53 * M) := by
        norm_num [EPS64]
      rw [hneg, hsign, abs_neg, abs_of_nonneg (mul_nonneg (by norm_num) hM0)]
  generalize hR : A.host (b + s * E) = R
  have h₃ := host_close h hB (b + s * E)
  rw [hR] at h₃
  generalize hN : A.host (s * 4 * EPS64 * M) = N
  have h₄ := host_close h hB (s * 4 * EPS64 * M)
  rw [hN, hsM] at h₄
  have h₅ := host_close h hB (R + N)
  have hsize : |R + N| ≤ |b| + E + (|b| + E + (|b| + X)) / 2 ^ 53 + (8 / 2 ^ 53 * M + (8 / 2 ^ 53 * M + (|b| + X)) / 2 ^ 53) := by
    have hR' : |R| ≤ |b + s * E| + |R - (b + s * E)| := by linarith [abs_sub_abs_le_abs_sub R (b + s * E)]
    have hN' : |N| ≤ |s * 4 * EPS64 * M| + |N - s * 4 * EPS64 * M| := by
      linarith [abs_sub_abs_le_abs_sub N (s * 4 * EPS64 * M)]
    rw [hsM] at hN'
    linarith [abs_add_le R N]
  obtain ⟨h₃l, h₃u⟩ := abs_le.mp h₃
  obtain ⟨h₄l, h₄u⟩ := abs_le.mp h₄
  obtain ⟨h₅l, h₅u⟩ := abs_le.mp h₅
  rw [widen, hM, hR, hN]
  rw [EPS64] at h₄l h₄u
  cases hs with
  | inl hone =>
    subst hone
    exact abs_le.mpr ⟨by linarith, by linarith⟩
  | inr hneg =>
    subst hneg
    exact abs_le.mpr ⟨by linarith, by linarith⟩

theorem host_exact (h : Lawful A slip) (hb : A.host b = b) (hs : s = 1 ∨ s = -1) :
    s * b ≤ s * widen A b (A.host 0) s := by
  have hsum : 0 ≤ A.host (|b| + 0) := h.host_nonneg _ (by rw [add_zero]; exact abs_nonneg b)
  rw [widen, h.host_zero, mul_zero, add_zero, hb]
  cases hs with
  | inl hone =>
    have hmargin : 0 ≤ A.host (1 * 4 * EPS64 * A.host (|b| + 0)) :=
      h.host_nonneg _ (mul_nonneg (by norm_num [EPS64]) hsum)
    have hmono := h.host_mono b (b + A.host (1 * 4 * EPS64 * A.host (|b| + 0))) (by linarith)
    rw [hb] at hmono
    rw [hone, one_mul, one_mul]
    exact hmono
  | inr hneg =>
    have hmargin : A.host (-1 * 4 * EPS64 * A.host (|b| + 0)) ≤ A.host 0 := by
      refine h.host_mono _ _ ?_
      have hpos : 0 ≤ 4 * EPS64 * A.host (|b| + 0) := mul_nonneg (by norm_num [EPS64]) hsum
      linarith
    rw [h.host_zero] at hmargin
    have hmono := h.host_mono (b + A.host (-1 * 4 * EPS64 * A.host (|b| + 0))) b (by linarith)
    rw [hb] at hmono
    rw [hneg]
    linarith

theorem widen_covers (h : Lawful A slip) (hrad : 0 ≤ rad) (hsafe : LineSafe A a b rad) (hs : s = 1 ∨ s = -1) :
    s * b + |a - A.cast a| * rad ≤ s * widen A b (slopeShift A a rad) s := by
  rw [slopeShift]
  have hX : 0 ≤ |a - A.cast a| * rad := mul_nonneg (abs_nonneg _) hrad
  cases hsafe.2 with
  | inl hzero =>
    rw [hzero, add_zero]
    exact host_exact h hsafe.1 hs
  | inr hlarge =>
    obtain ⟨hlow, hhigh⟩ := abs_le.mp (widen_error h hX hlarge hs)
    have hB0 : 0 ≤ |b| + |a - A.cast a| * rad := add_nonneg (abs_nonneg b) hX
    cases hs with
    | inl hone =>
      subst hone
      linarith
    | inr hneg =>
      subst hneg
      linarith

variable {x : ℝ} {lo hi : ℚ}

theorem abs_le_radius (hlo : lo ≤ x) (hhi : x ≤ hi) : |x| ≤ (radius lo hi : ℝ) := by
  rw [radius, Rat.cast_max, Rat.cast_abs, Rat.cast_abs, abs_le]
  constructor
  · linarith [neg_abs_le (lo : ℝ), le_max_left |(lo : ℝ)| |(hi : ℝ)|]
  · linarith [le_abs_self (hi : ℝ), le_max_right |(lo : ℝ)| |(hi : ℝ)|]

theorem radius_nonneg (lo hi : ℚ) : 0 ≤ radius lo hi := (abs_nonneg lo).trans (le_max_left _ _)

theorem slope_moves {a' : ℚ} (hx : |x| ≤ (rad : ℝ)) : |(a : ℝ) * x - a' * x| ≤ ((|a - a'| * rad : ℚ) : ℝ) := by
  have hsplit : (a : ℝ) * x - a' * x = (a - a') * x := by ring
  rw [hsplit, abs_mul, Rat.cast_mul, Rat.cast_abs, Rat.cast_sub]
  exact mul_le_mul_of_nonneg_left hx (abs_nonneg _)

theorem upper_line (h : Lawful A slip) {b : ℚ} (hsafe : LineSafe A a b (radius lo hi)) (hlo : lo ≤ x) (hhi : x ≤ hi) :
    (a : ℝ) * x + b ≤ A.cast a * x + up32 A (widen A b (slopeShift A a (radius lo hi)) 1) := by
  have hshift : |(a : ℝ) * x - A.cast a * x| ≤ _ := slope_moves (abs_le_radius hlo hhi)
  have hmoves := (abs_le.mp hshift).2
  have hcovers := widen_covers h (radius_nonneg lo hi) hsafe (.inl rfl)
  have hup := le_up32 h (widen A b (slopeShift A a (radius lo hi)) 1)
  have hq : b + |a - A.cast a| * radius lo hi ≤ up32 A (widen A b (slopeShift A a (radius lo hi)) 1) := by linarith
  have hr : (b : ℝ) + ((|a - A.cast a| * radius lo hi : ℚ) : ℝ) ≤
      (up32 A (widen A b (slopeShift A a (radius lo hi)) 1) : ℚ) := by exact_mod_cast hq
  linarith

theorem lower_line (h : Lawful A slip) {b : ℚ} (hsafe : LineSafe A a b (radius lo hi)) (hlo : lo ≤ x) (hhi : x ≤ hi) :
    A.cast a * x + down32 A (widen A b (slopeShift A a (radius lo hi)) (-1)) ≤ (a : ℝ) * x + b := by
  have hshift : |(a : ℝ) * x - A.cast a * x| ≤ _ := slope_moves (abs_le_radius hlo hhi)
  have hmoves := (abs_le.mp hshift).1
  have hcovers := widen_covers h (radius_nonneg lo hi) hsafe (.inr rfl)
  have hdown := down32_le h (widen A b (slopeShift A a (radius lo hi)) (-1))
  have hq : down32 A (widen A b (slopeShift A a (radius lo hi)) (-1)) + |a - A.cast a| * radius lo hi ≤ b := by linarith
  have hr : ((down32 A (widen A b (slopeShift A a (radius lo hi)) (-1)) : ℚ) : ℝ) +
      ((|a - A.cast a| * radius lo hi : ℚ) : ℝ) ≤ b := by exact_mod_cast hq
  linarith

/-- The conditions of `sound_lines_f32`. -/
def LinesSafe (A : Arithmetic) (kind : Kind) (r : Relaxation) (lo hi : Index → ℚ) (i : Index) : Prop :=
  LineSafe A (r.a_u i) (r.b_u i) (radius (lo i) (hi i)) ∧
    (kind = .other → LineSafe A (r.a_l i) (r.b_l i) (radius (lo i) (hi i)))

theorem soundLines_bound (h : Lawful A slip) {kind : Kind} {r : Relaxation} {lo hi : Index → ℚ} {i : Index}
    (hsafe : LinesSafe A kind r lo hi i) (hlo : lo i ≤ x) (hhi : x ≤ hi i) :
    (r.a_u i : ℝ) * x + r.b_u i ≤ (soundLines A kind r lo hi).a_u i * x + (soundLines A kind r lo hi).b_u i ∧
      (soundLines A kind r lo hi).a_l i * x + (soundLines A kind r lo hi).b_l i ≤ (r.a_l i : ℝ) * x + r.b_l i := by
  refine ⟨upper_line h hsafe.1 hlo hhi, ?_⟩
  cases kind with
  | relu => exact le_rfl
  | other => exact lower_line h (hsafe.2 rfl) hlo hhi

end Onnxsim.Rigorous.Lines

namespace Onnxsim.Rigorous.Enclosure

open List Lib.Runs Lib.Roundings Lib.Stores Overflow.Arrays Rigorous.Float32
open Covering Kernels Contractions TreeSums
open Operations Tensors Machine Soundness
open InPlace Computations Lines

variable {z : ℚ} {i : Index}

def flush (z : ℚ) : ℚ := if |z| ≤ ETA / 2 then 0 else z

def flushing : Arithmetic where
  add x y := x + y
  mul x y := flush (x * y)
  div x y := flush (x / y)
  cast := id
  next := id
  prev := id
  host := id
  hostSub x y := x - y

theorem flush_near (z : ℚ) : |flush z - z| ≤ U * |z| + ETA / 2 := by
  have hround : 0 ≤ U * |z| := mul_nonneg U_pos.le (abs_nonneg z)
  rw [flush]
  split
  · next hsmall =>
    rw [zero_sub, abs_neg]
    linarith
  · rw [sub_self, abs_zero]
    linarith [half_ETA_nonneg]

theorem flush_nonneg (hz : 0 ≤ z) : 0 ≤ flush z := by
  rw [flush]
  split
  · exact le_rfl
  · exact hz

theorem flushing_lawful : Lawful flushing fun _ => ETA / 2 where
  slip_nonneg _ := half_ETA_nonneg
  slip_le _ := le_rfl
  add x y := by
    change |x + y - (x + y)| ≤ _
    rw [sub_self, abs_zero]
    exact mul_nonneg U_pos.le (abs_nonneg _)
  mul x y := flush_near (x * y)
  div x y _ := flush_near (x / y)
  mul_nonneg x y hx hy := flush_nonneg (mul_nonneg hx hy)
  div_nonneg x y hx hy := flush_nonneg (div_nonneg hx hy)
  cast x := by
    change |x - x| ≤ _
    rw [sub_self, abs_zero]
    exact add_nonneg (mul_nonneg U_pos.le (abs_nonneg x)) half_ETA_nonneg
  cast_nonneg _ hx := hx
  cast_cast _ := rfl
  cast_next _ := rfl
  le_next _ hlt := absurd hlt (lt_irrefl _)
  prev_le _ hlt := absurd hlt (lt_irrefl _)
  host x := by
    change |x - x| ≤ _
    rw [sub_self, abs_zero]
    exact add_nonneg (div_nonneg (abs_nonneg x) (by norm_num)) (by linarith [ETA64_pos])
  host_nonneg _ hx := hx
  host_zero := rfl
  host_mono _ _ hxy := hxy
  hostSub x y := by
    change |x - y - (x - y)| ≤ _
    rw [sub_self, abs_zero]
    exact div_nonneg (abs_nonneg _) (by norm_num)
  hostSub_le x y hy := sub_le_self x hy

variable {A : Arithmetic} {slip : ℚ → ℚ}

/-- After a run whose steps meet their conditions every object encloses the tensor that the same computation makes
of real numbers; and the rounded lines bound what the given lines bound. -/
theorem rigorous_values_enclose (h : Lawful A slip) :
    (∀ (is : List Instruction) (m m' : State) (x : Reals), m.objs = [] → x.objs = [] → SafeRun A slip is m m' →
      (∃ x', Trace Reals.Step is x x') ∧ ∀ x', Trace Reals.Step is x x' →
        x'.objs = m'.objs.map Obj.v ∧ ∀ o ∈ m'.objs, ∀ i ∈ indices o.v.shape,
          |x'.cells (o.v.address i) - m'.vals (o.v.address i)| ≤ errAt (m'.tensor o).e i ∧
            lowerToNumpy A (m'.tensor o) i ≤ x'.cells (o.v.address i)) ∧
      ∀ (kind : Kind) (r : Relaxation) (lo hi : Index → ℚ) (i : Index) (f : ℝ → ℝ), LinesSafe A kind r lo hi i →
        ((∀ x : ℝ, lo i ≤ x → x ≤ hi i → f x ≤ r.a_u i * x + r.b_u i) → ∀ x : ℝ, lo i ≤ x → x ≤ hi i →
          f x ≤ (soundLines A kind r lo hi).a_u i * x + (soundLines A kind r lo hi).b_u i) ∧
        ((∀ x : ℝ, lo i ≤ x → x ≤ hi i → r.a_l i * x + r.b_l i ≤ f x) → ∀ x : ℝ, lo i ≤ x → x ≤ hi i →
          (soundLines A kind r lo hi).a_l i * x + (soundLines A kind r lo hi).b_l i ≤ f x) := by
  constructor
  · intro is m m' x hm hx hrun
    have hempty : Sound m x := ⟨by rw [hm, hx, map_nil], fun o ho => by rw [hm] at ho; cases ho⟩
    refine ⟨exists_run h hrun hempty, fun x' hreal => ?_⟩
    have hsound := run_sound h hrun hreal hempty
    refine ⟨hsound.objs, fun o ho i hi => ?_⟩
    have henclosed := (hsound.stands o ho).enclosed
    exact ⟨(henclosed.encloses i hi).abs_le, lowerToNumpy_le h henclosed hi⟩
  · intro kind r lo hi i f hsafe
    constructor
    · intro hupper x hlo hhi
      exact (hupper x hlo hhi).trans (soundLines_bound h hsafe hlo hhi).1
    · intro hlower x hlo hhi
      exact (soundLines_bound h hsafe hlo hhi).2.trans (hlower x hlo hhi)

def unit (k : Nat) : View := ⟨[1], k, [1]⟩

/-- Two tensors of the smallest number are added in place, and the sum is negated. -/
def doubling : List Instruction :=
  [.result (.tensor [1] (fun _ => ETA) true) (unit 0) (some (unit 0)),
    .result (.tensor [1] (fun _ => ETA) false) (unit 1) none, .iadd 0 1, .sign .negate 0 (unit 2)]

def unused (a : Nat) : ℚ := if a = 2 then -(2 * ETA) else ETA

def doubledVals (a : Nat) : ℚ := if a = 0 then 2 * ETA else unused a

def doubledErrs (a : Nat) : ℚ := if a = 0 then ETA else 0

def summed : List Obj := [⟨unit 0, some (unit 0)⟩, ⟨unit 1, none⟩]

def doubled : State := ⟨doubledVals, doubledErrs, summed ++ [⟨unit 2, some (unit 0)⟩], 3⟩

theorem eq_of_mem_indices {k : Nat} (h : i ∈ indices (unit k).shape) : i = [0] := mem_singleton.mp h

theorem written_unit {k : Nat} {f : Index → ℚ} {s t : Nat → ℚ} (hin : t k = f [0]) (hout : ∀ a, a ≠ k → t a = s a) :
    Written (indices [1]) (unit k).address f s t where
  inside i hi := by
    rw [eq_of_mem_indices (k := k) hi, ← hin]
    rfl
  outside a ha := hout a (Ne.symm (ha [0] (mem_singleton.mpr rfl)))

theorem separate_unit (k : Nat) : Separate (indices [1]) (unit k).address := fun _ hi _ hj _ =>
  (eq_of_mem_indices (k := k) hi).trans (eq_of_mem_indices (k := k) hj).symm

theorem fresh_unit (k : Nat) : Fresh k (k + 1) (unit k) where
  unused _ _ := Nat.le_add_right _ _
  below i hi := by
    rw [eq_of_mem_indices hi]
    exact Nat.lt_succ_self k
  separate := separate_unit k

theorem flush_small (h : |z| ≤ ETA / 2) : flush z = 0 := if_pos h

theorem resultTerm_doubled : resultTerm flushing (2 * ETA) = 0 := by
  refine flush_small ?_
  norm_num [flushing, UP, U, ETA]

theorem fin_zero {n : Nat} {c : ℚ} (hc : infl flushing n = some c) : fin flushing 0 n = some ETA := by
  rw [fin, hc, Option.map_some, Option.some.injEq]
  change flush (0 * c) + ETA = ETA
  rw [zero_mul, flush_small (by rw [abs_zero]; exact half_ETA_nonneg), zero_add]

theorem infl_two : infl flushing 2 = some (1 + 2 * highamGamma 10) := by
  rw [infl, gamma, if_neg (by norm_num [U])]
  rfl

theorem doubling_adds : Step flushing (.iadd 0 1) ⟨unused, fun _ => 0, summed, 2⟩ ⟨doubledVals, doubledErrs, summed, 2⟩ := by
  have hsum : doubledVals 0 = flushing.add (unused 0) (unused 1) := two_mul ETA
  have hterm : flushing.add 0 (resultTerm flushing (doubledVals 0)) = 0 := by
    change 0 + resultTerm flushing (2 * ETA) = 0
    rw [resultTerm_doubled, add_zero]
  have hbroadcast : Broadcasts (unit 0).shape (unit 1).shape (unit 0).shape := by
    refine ⟨rfl, fun i hi => ?_⟩
    rw [eq_of_mem_indices hi]
    exact ⟨mem_singleton.mpr rfl, mem_singleton.mpr rfl⟩
  refine @Step.iadd flushing 0 1 ⟨unused, fun _ => 0, summed, 2⟩ ⟨unit 0, some (unit 0)⟩ ⟨unit 1, none⟩ (unit 0)
    doubledVals (fun _ => 0) doubledErrs (fun _ => ETA) rfl rfl rfl hbroadcast (separate_unit 0)
    (written_unit hsum fun a ha => if_neg ha) (written_unit hterm.symm fun _ _ => rfl) (fun i _ => ?_)
    (written_unit rfl fun a ha => if_neg ha)
  exact fin_zero infl_two

theorem doubling_follows (o : Obj) (ho : summed[0]? = some o) : Follows ⟨unused, fun _ => 0, summed, 2⟩ o := by
  cases ho
  intro p hp i hi j hj hshare
  rw [eq_of_mem_indices (k := 0) hj] at hshare ⊢
  cases hp with
  | head =>
    rw [eq_of_mem_indices (k := 0) hi]
  | tail _ hp =>
    rw [mem_singleton.mp hp] at hi hshare
    rw [eq_of_mem_indices (k := 1) hi] at hshare
    cases hshare

theorem doubling_safe : SafeRun flushing (fun _ => ETA / 2) doubling ⟨unused, fun _ => 0, [], 0⟩ doubled := by
  have hfirst : Step flushing (.result (.tensor [1] (fun _ => ETA) true) (unit 0) (some (unit 0)))
      ⟨unused, fun _ => 0, [], 0⟩ ⟨unused, fun _ => 0, [⟨unit 0, some (unit 0)⟩], 1⟩ :=
    .result rfl (Nat.zero_le 1) ⟨rfl, fresh_unit 0, written_unit rfl fun _ _ => rfl⟩
      (.some ⟨rfl, fresh_unit 0, written_unit rfl fun _ _ => rfl⟩) rfl
  have hsecond : Step flushing (.result (.tensor [1] (fun _ => ETA) false) (unit 1) none)
      ⟨unused, fun _ => 0, [⟨unit 0, some (unit 0)⟩], 1⟩ ⟨unused, fun _ => 0, summed, 2⟩ :=
    .result rfl (Nat.le_succ 1) ⟨rfl, fresh_unit 1, written_unit rfl fun _ _ => rfl⟩ .none rfl
  have hfourth : Step flushing (.sign .negate 0 (unit 2)) ⟨doubledVals, doubledErrs, summed, 2⟩ doubled :=
    @Step.sign flushing .negate 0 (unit 2) _ _ ⟨unit 0, some (unit 0)⟩ rfl (Nat.le_succ 2)
      ⟨rfl, fresh_unit 2, written_unit rfl fun _ _ => rfl⟩ rfl rfl
  exact .cons ⟨trivial, hfirst⟩ (.cons ⟨trivial, hsecond⟩ (.cons ⟨doubling_follows, doubling_adds⟩
    (.cons ⟨trivial, hfourth⟩ .nil)))

/-- The enclosure of the run that doubles the smallest number. -/
theorem rigorous_values_enclose_doubling :
    (∃ x', Trace Reals.Step doubling ⟨fun _ => 0, []⟩ x') ∧ ∀ x', Trace Reals.Step doubling ⟨fun _ => 0, []⟩ x' →
      x'.objs = doubled.objs.map Obj.v ∧ ∀ o ∈ doubled.objs, ∀ i ∈ indices o.v.shape,
        |x'.cells (o.v.address i) - doubled.vals (o.v.address i)| ≤ errAt (doubled.tensor o).e i ∧
          lowerToNumpy flushing (doubled.tensor o) i ≤ x'.cells (o.v.address i) :=
  (rigorous_values_enclose flushing_lawful).1 doubling _ doubled ⟨fun _ => 0, []⟩ rfl rfl doubling_safe

def row : View := ⟨[3], 0, [1]⟩

def scalar : View := ⟨[], 3, []⟩

/-- Three times the smallest number is multiplied by `0.375`, and every product underflows. -/
def underflowing : List Instruction :=
  [.result (.tensor [3] (fun _ => ETA) false) row none,
    .result (.matmul 0 (.exact [3] fun _ => 3 / 8)) scalar (some scalar)]

def underflowVals (a : Nat) : ℚ := if a < 3 then ETA else 0

def underflowCells (a : Nat) : ℚ := if a < 3 then ETA else 9 / 8 * ETA

def underflowed : State := ⟨underflowVals, fun _ => ETA, [⟨row, none⟩, ⟨scalar, some scalar⟩], 4⟩

theorem row_mem (h : i ∈ indices [3]) : row.address i < 3 ∧ underflowVals (row.address i) = ETA := by
  have hlt : ∀ j ∈ indices [3], row.address j < 3 := by decide
  exact ⟨hlt i h, if_pos (hlt i h)⟩

theorem fresh_row : Fresh 0 3 row where
  unused _ _ := Nat.zero_le _
  below _ hi := (row_mem hi).1
  separate := by
    rw [Separate]
    decide

theorem fresh_scalar : Fresh 3 4 scalar where
  unused _ _ := Nat.le_add_right _ _
  below i hi := by
    rw [mem_singleton.mp hi]
    decide
  separate i hi j hj _ := (mem_singleton.mp hi).trans (mem_singleton.mp hj).symm

theorem accumulates_zeros {l : List ℚ} (hl : ∀ z ∈ l, z = 0) : Accumulates flushing.add l 0 := by
  induction l with
  | nil => exact .nil
  | cons z l ih =>
    have hz : z = 0 := hl z mem_cons_self
    have hrest := ih fun y hy => hl y (mem_cons_of_mem z hy)
    cases l with
    | nil =>
      rw [hz]
      exact .single 0
    | cons y l =>
      have hjoin := Accumulates.join (cons_ne_nil z []) (cons_ne_nil y l) (Accumulates.single z) hrest
        (List.Perm.refl (z :: y :: l))
      have hsum : flushing.add z 0 = 0 := by
        rw [hz]
        exact add_zero 0
      rwa [hsum] at hjoin

theorem mul_small {x y : ℚ} (h : |x * y| ≤ ETA / 2) : flushing.mul x y = 0 := if_pos h

theorem gamma_three : gamma flushing 3 = some (highamGamma 3) := by
  rw [gamma, if_neg (by norm_num [U])]
  rfl

theorem infl_five : infl flushing 5 = some (1 + 2 * highamGamma 13) := by
  rw [infl, gamma, if_neg (by norm_num [U])]
  rfl

theorem matmul_terms : (matmul [3] [3]).terms [] = [([0], [0]), ([1], [1]), ([2], [2])] := rfl

theorem underflow_contracts : Contracts flushing (matmul [3] [3]) (underflowed.tensor ⟨row, none⟩)
    ((Constant.exact [3] fun _ => 3 / 8).tensor flushing) ⟨[], fun _ => 0, some fun _ => ETA⟩ := by
  have hinside : ∀ t ∈ (matmul [3] [3]).terms [], t.1 ∈ indices [3] ∧ t.2 ∈ indices [3] := by decide
  refine ⟨rfl, fun i hi => ?_, fun _ => ETA, highamGamma 3, rfl, gamma_three, fun i hi => ?_⟩
  · rw [mem_singleton.mp hi]
    exact hinside
  · rw [mem_singleton.mp hi]
    refine ⟨0, accumulates_zeros fun z hz => ?_, ⟨0, accumulates_zeros fun z hz => ?_, rfl⟩, fin_zero infl_five⟩
    · rw [List.map_map] at hz
      obtain ⟨t, ht, rfl⟩ := List.mem_map.mp hz
      change flushing.mul (underflowVals (row.address t.1)) (3 / 8) = 0
      rw [(row_mem (hinside t ht).1).2]
      exact mul_small (by norm_num [ETA])
    · rw [List.map_map] at hz
      obtain ⟨t, ht, rfl⟩ := List.mem_map.mp hz
      change flushing.mul (lhsTerm flushing (highamGamma 3) (underflowVals (row.address t.1)) none) |3 / 8| = 0
      have hlhs : lhsTerm flushing (highamGamma 3) (underflowVals (row.address t.1)) none = 0 := by
        rw [(row_mem (hinside t ht).1).2]
        refine mul_small ?_
        norm_num [flushing, highamGamma, U, ETA]
      rw [hlhs]
      exact mul_small (by rw [zero_mul, abs_zero]; exact half_ETA_nonneg)

theorem underflow_runs : Trace (Step flushing) underflowing ⟨underflowVals, fun _ => ETA, [], 0⟩ underflowed := by
  have hwritten : ∀ {f : Index → ℚ} {s : Nat → ℚ}, s 3 = f [] → Written (indices []) scalar.address f s s := by
    intro f s hs
    refine Written.refl fun i hi => ?_
    rw [mem_singleton.mp hi, ← hs]
    rfl
  have hfirst : Step flushing (.result (.tensor [3] (fun _ => ETA) false) row none)
      ⟨underflowVals, fun _ => ETA, [], 0⟩ ⟨underflowVals, fun _ => ETA, [⟨row, none⟩], 3⟩ :=
    .result rfl (Nat.zero_le 3) ⟨rfl, fresh_row, Written.refl fun _ hi => (row_mem hi).2⟩ .none rfl
  have hsecond : Step flushing (.result (.matmul 0 (.exact [3] fun _ => 3 / 8)) scalar (some scalar))
      ⟨underflowVals, fun _ => ETA, [⟨row, none⟩], 3⟩ underflowed :=
    .result ⟨_, rfl, underflow_contracts⟩ (Nat.le_succ 3) ⟨rfl, fresh_scalar, hwritten rfl⟩
      (.some ⟨rfl, fresh_scalar, hwritten rfl⟩) rfl
  exact .cons hfirst (.cons hsecond .nil)

theorem underflow_reals : Trace Reals.Step underflowing ⟨underflowCells, []⟩ ⟨underflowCells, [row, scalar]⟩ := by
  have hfirst : Reals.Step (.result (.tensor [3] (fun _ => ETA) false) row none) ⟨underflowCells, []⟩
      ⟨underflowCells, [row]⟩ :=
    .result rfl ⟨rfl, Written.refl fun i hi => if_pos (row_mem hi).1, rfl⟩
  have hsum : underflowCells 3 = (((matmul [3] [3]).terms []).map fun t =>
      underflowCells (row.address t.1) * (3 / 8)).sum := by
    rw [matmul_terms]
    change 9 / 8 * ETA = ETA * (3 / 8) + (ETA * (3 / 8) + (ETA * (3 / 8) + 0))
    ring
  have hsecond : Reals.Step (.result (.matmul 0 (.exact [3] fun _ => 3 / 8)) scalar (some scalar))
      ⟨underflowCells, [row]⟩ ⟨underflowCells, [row, scalar]⟩ := by
    refine .result rfl ⟨rfl, Written.refl fun i hi => ?_, rfl⟩
    rw [mem_singleton.mp hi]
    exact hsum
  exact .cons hfirst (.cons hsecond .nil)

/-- One floor does not cover the underflows of three products. -/
theorem underflows_escape :
    ¬ ∀ (A : Arithmetic) (slip : ℚ → ℚ), Lawful A slip → ∀ (is : List Instruction) (m m' : State) (x x' : Reals),
      m.objs = [] → x.objs = [] → Trace (Step A) is m m' → Trace Reals.Step is x x' →
        ∀ o ∈ m'.objs, ∀ i ∈ indices o.v.shape,
          |x'.cells (o.v.address i) - m'.vals (o.v.address i)| ≤ errAt (m'.tensor o).e i := by
  intro hclaim
  have hbound := hclaim flushing _ flushing_lawful underflowing _ underflowed _ _ rfl rfl underflow_runs
    underflow_reals ⟨scalar, some scalar⟩ (mem_of_getElem? (i := 1) rfl) [] (mem_singleton.mpr rfl)
  change |9 / 8 * ETA - 0| ≤ ETA at hbound
  norm_num [ETA] at hbound

end Onnxsim.Rigorous.Enclosure
