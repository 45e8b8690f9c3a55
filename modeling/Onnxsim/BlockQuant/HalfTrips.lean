import Onnxsim.Narrowing.Encoders

namespace Onnxsim.BlockQuant.Halves

open Lib Lib.Binary Lib.Minifloats Doubles Narrowing
open Narrowing.Encoders (half abs_single clamp normalizeHalf_bounds size_half size_max size_single)

variable {w M n h p : Nat} {v : ℚ}

theorem magnitude_scaled (hM : M < 2 ^ (w + 1)) (hlead : M < 2 ^ w → n = 0) :
    magnitude w (M + n * 2 ^ w) = M * 2 ^ n := by
  by_cases hlt : M < 2 ^ w
  · rw [hlead hlt, Nat.zero_mul, Nat.add_zero, magnitude_of_lt hlt, pow_zero, Nat.mul_one]
  · have hcode : M + n * 2 ^ w = (n + 1) * 2 ^ w + (M - 2 ^ w) := by
      rw [Nat.succ_mul]
      omega
    rw [hcode, magnitude_fields n.succ_pos (by omega), Nat.add_sub_cancel' (not_lt.mp hlt), Nat.succ_sub_one]

/-- The bits of a float that is at most the largest half: its sign, and the code of its magnitude. -/
theorem floatBits_spec (hv : Representable binary32 v) (hle : |v| ≤ kFloat16Max) :
    ∃ code ≤ Encoders.kFloat16Max, floatBits v = (if v < 0 then 1 else 0) * 2 ^ 31 + code ∧ single.size code = |v| := by
  suffices h : ∃ code, floatBits v = (if v < 0 then 1 else 0) * 2 ^ 31 + code ∧ single.size code = |v| by
    obtain ⟨code, hbits, hsize⟩ := h
    refine ⟨code, single.size_strictMono.le_iff_le.mp ?_, hbits, hsize⟩
    rw [hsize, size_max.2]
    exact hle
  rw [floatBits]
  by_cases hzero : v = 0
  · subst hzero
    exact ⟨0, by simp, by rw [single.size_zero, abs_zero]⟩
  refine ⟨_, if_neg hzero, ?_⟩
  have hlt : (significand binary32 v).natAbs < 2 ^ 24 := by
    have : |significand binary32 v| < 2 ^ 24 := abs_significand_lt hv
    rw [Int.abs_eq_natAbs] at this
    omega
  have hmin : -149 ≤ quantum binary32 v := emin_le_quantum v
  have hvalue : |v| = ((significand binary32 v).natAbs : ℚ) * 2 ^ quantum binary32 v := by
    have h := congrArg abs (eq_significand hv)
    rwa [abs_mul, abs_of_pos (quantum_pos v), ← Int.cast_abs, Int.abs_eq_natAbs, Int.cast_natCast] at h
  obtain ⟨n, hn⟩ := Int.eq_ofNat_of_zero_le (show 0 ≤ quantum binary32 v + 149 by omega)
  have hE : quantum binary32 v = n - 149 := by omega
  have hlead : (significand binary32 v).natAbs < 2 ^ 23 → n = 0 := by
    intro hsmall
    by_contra hpos
    have : 2 ^ 23 ≤ |significand binary32 v| := le_abs_significand (f := binary32) (by decide) hzero (show -149 < _ by omega)
    rw [Int.abs_eq_natAbs] at this
    omega
  rw [hn, Int.toNat_natCast, size_single, magnitude_scaled hlt hlead, hvalue, hE, zpow_sub₀ two_ne_zero, zpow_natCast,
    mul_div_assoc']
  push_cast
  rfl

theorem clampToHalf_fin (hle : |v| ≤ kFloat16Max) : clampToHalf (.fin v) = some v := by
  have := abs_le.mp hle
  rw [clampToHalf, if_neg (by linarith), if_neg (by linarith)]

/-- The encoder here and the one on bit patterns are one function, and it rounds to a nearest half. -/
theorem floatToFloat16Bits_rounds (hv : Representable binary32 v) (hle : |v| ≤ kFloat16Max) :
    Rounds half Away v (floatToFloat16Bits (.fin v)) ∧
      floatToFloat16Bits (.fin v) / 2 ^ 15 = if v < 0 then 1 else 0 := by
  obtain ⟨code, hcode, hbits, hsize⟩ := floatBits_spec hv hle
  have hmax : Encoders.kFloat16Max < 2 ^ 31 := by decide
  obtain ⟨hpos, hneg⟩ := abs_single (hcode.trans_lt hmax)
  have hfields := word_fields (s := if v < 0 then 1 else 0) (hcode.trans_lt hmax)
  rw [← hbits] at hfields
  have hvalue : single.value (floatBits v) = v := by
    rw [hbits]
    split
    · next hlt => rw [Nat.one_mul, hneg, hsize, abs_of_neg hlt, neg_neg]
    · next hge => rw [Nat.zero_mul, Nat.zero_add, hpos, hsize, abs_of_nonneg (not_lt.mp hge)]
  have hbound : -65504 ≤ v ∧ v ≤ 65504 := abs_le.mp hle
  have hnum : floatBits v % 2 ^ 31 ≤ 0x7F800000 := hfields.2.trans_le (hcode.trans (by decide))
  have hclamp : clamp Encoders.kFloat16Max (floatBits v) = floatBits v := by
    obtain ⟨htop, hbottom⟩ := abs_single hmax
    rw [clamp, hvalue, htop, hbottom, size_max.2, if_neg (by linarith), if_neg (by linarith)]
  have heq : floatToFloat16Bits (.fin v) = Encoders.floatToFloat16Bits (floatBits v) := by
    rw [floatToFloat16Bits, clampToHalf_fin hle, Encoders.floatToFloat16Bits, if_neg (Encoders.not_nan hnum), hclamp]
  have hlt : floatBits v < 2 ^ 32 := by
    rw [hbits]
    split <;> omega
  obtain ⟨hrounds, hsign⟩ := Encoders.floatToFloat16Bits_rounds hlt hnum
  rw [hvalue, min_eq_right hbound.2, max_eq_right hbound.1] at hrounds
  rw [heq]
  exact ⟨hrounds, hsign.trans hfields.1⟩

theorem floatOfFields_eq {s : Nat} {negative : Bool} {e : Int} {m : Nat} (hneg : negative = decide (s = 1)) (hs : s < 2)
    (he : e = n + 1) (hn : n < 254) (hm : m < 2 ^ 23) :
    floatOfFields negative e m = .fin (single.value (s * 2 ^ 31 + (e.toNat * 2 ^ 23 + m))) := by
  have hcode : e.toNat = n + 1 := by omega
  obtain ⟨hdiv, hmod⟩ := word_fields (s := s) (show (n + 1) * 2 ^ 23 + m < 2 ^ 31 by omega)
  rw [hcode, floatOfFields, Layout.value, show single.sign = 31 from rfl, hdiv, hmod, size_single,
    magnitude_fields n.succ_pos hm, Nat.succ_sub_one, he, hneg]
  have hsign : (if decide (s = 1) = true then -1 else 1 : ℚ) = (-1) ^ s := by
    interval_cases s <;> simp
  have hexp : (n : Int) + 1 - 150 = n - 149 := by ring
  rw [hsign, hexp, zpow_sub₀ two_ne_zero, zpow_natCast, mul_div_assoc']
  push_cast
  rfl

theorem float16BitsToFloat32_eq (hfin : half.Finite h) : float16BitsToFloat32 h = .fin (half.value h) := by
  rw [← (Encoders.value_float16BitsToFloat32 hfin).1, float16BitsToFloat32, Encoders.float16BitsToFloat32]
  have hs : h / 2 ^ 15 % 2 < 2 := Nat.mod_lt _ two_pos
  have hexp : h / 2 ^ 10 % 2 ^ 5 < 31 := by
    have := hfin.2
    rw [show half.sign = 15 from rfl, show half.top = 0x7BFF from rfl] at this
    omega
  have hm := Nat.mod_lt h (Nat.two_pow_pos 10)
  dsimp only
  generalize h / 2 ^ 15 % 2 = s at hs ⊢
  generalize h / 2 ^ 10 % 2 ^ 5 = e at hexp ⊢
  generalize h % 2 ^ 10 = m at hm ⊢
  by_cases hzero : e = 0
  · rw [if_pos hzero, if_pos hzero]
    by_cases hm0 : m = 0
    · rw [if_pos hm0, if_pos hm0]
      have := word_fields (n := 31) (s := s) (r := 0) (by decide)
      rw [Nat.add_zero] at this
      rw [Layout.value, show single.sign = 31 from rfl, this.2, single.size_zero, mul_zero]
    · rw [if_neg hm0, if_neg hm0]
      obtain ⟨hlo, hhi⟩ := normalizeHalf_bounds 10 m 1
      exact floatOfFields_eq (n := ((normalizeHalf 10 m 1).2 + 111).toNat) rfl hs (by omega) (by omega) (by omega)
  · rw [if_neg hzero, if_neg hzero, if_neg (by omega), if_neg (by omega)]
    exact floatOfFields_eq (n := e + 111) rfl hs (by push_cast; ring) (by omega) (by omega)

theorem rounds_zero_iff (hp : Rounds half Away v p) : p % 2 ^ 15 = 0 ↔ |v| < 1 / 2 ^ 25 := by
  have hone : half.size 1 = 1 / 2 ^ 24 := by rw [size_half, magnitude_of_lt (by decide), Nat.cast_one]
  have habs : |half.value p| = half.size (p % 2 ^ 15) := half.abs_value p
  constructor
  · intro hzero
    rw [hzero, half.size_zero, abs_eq_zero] at habs
    by_contra hge
    rw [not_lt] at hge
    -- the least half on the side of `v` would be as near as zero
    obtain ⟨c, hc, hcode, hle⟩ : ∃ c, half.Finite c ∧ c % 2 ^ 15 = 1 ∧ |half.value c - v| ≤ |v| := by
      have hvalues : half.value (2 ^ 15 + 1) = -half.size 1 ∧ half.value 1 = half.size 1 := by
        norm_num [Layout.value, half]
      by_cases hneg : v < 0
      · refine ⟨2 ^ 15 + 1, ⟨by decide, by decide⟩, by decide, ?_⟩
        rw [abs_of_neg hneg] at hge ⊢
        rw [hvalues.1, hone, abs_le]
        constructor <;> linarith
      · refine ⟨1, ⟨by decide, by decide⟩, by decide, ?_⟩
        rw [abs_of_nonneg (not_lt.mp hneg)] at hge ⊢
        rw [hvalues.2, hone, abs_le]
        constructor <;> linarith
    have hnear := hp.nearest c hc
    have htie := hp.tie c hc
    rw [habs, zero_sub, abs_neg] at hnear htie
    rcases htie (hle.antisymm hnear) with heq | haway
    · have hsize := half.abs_value c
      rw [heq, abs_zero, show half.sign = 15 from rfl, hcode, hone] at hsize
      norm_num at hsize
    · exact absurd (haway.trans_eq hzero) (Nat.not_lt_zero _)
  · intro hlt
    have hnear := hp.nearest 0 ⟨by decide, by decide⟩
    have hzero : half.value 0 = 0 := abs_eq_zero.mp ((half.abs_value 0).trans half.size_zero)
    rw [hzero, zero_sub, abs_neg] at hnear
    have hsize : half.size (p % 2 ^ 15) < half.size 1 := by
      rw [← habs, hone]
      have := abs_sub_abs_le_abs_sub (half.value p) v
      linarith
    exact Nat.lt_one_iff.mp (half.size_strictMono.lt_iff_lt.mp hsize)

theorem halved_float (hv : Representable binary32 v) (hle : |v| ≤ kFloat16Max) :
    ∃ k : Int, float16BitsToFloat32 (floatToFloat16Bits (.fin v)) = .fin (k / 2 ^ 24) ∧ |k| < 2 ^ 40 ∧
      (0 ≤ v → 0 ≤ k) ∧ (k = 0 ↔ |v| < 1 / 2 ^ 25) := by
  obtain ⟨hrounds, hsign⟩ := floatToFloat16Bits_rounds hv hle
  generalize floatToFloat16Bits (.fin v) = p at hrounds hsign ⊢
  refine ⟨(-1) ^ (p / 2 ^ 15) * magnitude 10 (p % 2 ^ 15), ?_, ?_, fun hnonneg => ?_, ?_⟩
  · rw [float16BitsToFloat32_eq hrounds.finite, Layout.value, size_half, ← mul_div_assoc]
    push_cast
    rfl
  · have hlt := (magnitude_strictMono 10).monotone hrounds.finite.2
    rw [abs_mul, abs_pow, abs_neg, abs_one, one_pow, one_mul, Nat.abs_cast]
    exact_mod_cast hlt.trans_lt (by decide)
  · rw [hsign, if_neg (not_lt.mpr hnonneg), pow_zero, one_mul]
    exact Int.natCast_nonneg _
  · have hzero := (magnitude_strictMono 10).injective.eq_iff (a := p % 2 ^ 15) (b := 0)
    rw [magnitude_of_lt (show 0 < 2 ^ 10 by decide)] at hzero
    rw [← rounds_zero_iff hrounds, ← hzero, mul_eq_zero_iff_left (pow_ne_zero _ (by decide)), Int.natCast_eq_zero]

theorem representable_max : Representable binary32 kFloat16Max :=
  ⟨65504, 0, by decide, by decide, by norm_num [kFloat16Max]⟩

/-- The round trip of a double that is a number. -/
structure RoundTrips (x : ℚ) (k : Int) : Prop where
  eq : roundTripFloat16 (.fin x) = .fin (k / 2 ^ 24)
  lt : |k| < 2 ^ 40
  nonneg : 0 ≤ x → 0 ≤ k
  zero : k = 0 ↔ |Binary.round binary32 x| < 1 / 2 ^ 25

theorem floatToFloat16Bits_clamped {y : Double} (h : clampToHalf y = some v) (hle : |v| ≤ kFloat16Max) :
    floatToFloat16Bits y = floatToFloat16Bits (.fin v) := by
  rw [floatToFloat16Bits, floatToFloat16Bits, h, clampToHalf_fin hle]

theorem max_pos : 0 < kFloat16Max := by norm_num [kFloat16Max]

theorem clamped_le {y : Double} (h : clampToHalf y = some v) : |v| ≤ kFloat16Max := by
  have hmax := max_pos
  rw [clampToHalf.eq_def] at h
  split at h
  · cases h
  · cases h
    split
    · rw [abs_neg, abs_of_pos hmax]
    · rw [abs_of_pos hmax]
  · cases h
    split
    · rw [abs_of_pos hmax]
    · split
      · rw [abs_neg, abs_of_pos hmax]
      · rw [abs_le]
        constructor <;> linarith

theorem exists_clamped (x : ℚ) :
    ∃ v, clampToHalf (toFloat (.fin x)) = some v ∧ Representable binary32 v ∧
      (0 ≤ x → 0 ≤ v) ∧ (|v| < 1 / 2 ^ 25 ↔ |Binary.round binary32 x| < 1 / 2 ^ 25) := by
  have hmax := max_pos
  have hbig : ¬|kFloat16Max| < 1 / 2 ^ 25 := by
    rw [abs_of_pos hmax]
    norm_num [kFloat16Max]
  have hneg : Representable binary32 (-kFloat16Max) :=
    ⟨-65504, 0, by decide, by decide, by norm_num [kFloat16Max]⟩
  rw [toFloat]
  by_cases hfin : |Binary.round binary32 x| < 2 ^ 128
  · rw [if_pos hfin, clampToHalf]
    by_cases hhigh : kFloat16Max < Binary.round binary32 x
    · rw [if_pos hhigh]
      refine ⟨_, rfl, representable_max, fun _ => hmax.le, iff_of_false hbig ?_⟩
      rw [abs_of_pos hmax] at hbig
      rw [abs_of_pos (hmax.trans hhigh)]
      linarith
    · rw [if_neg hhigh]
      by_cases hlow : Binary.round binary32 x < -kFloat16Max
      · rw [if_pos hlow]
        refine ⟨_, rfl, hneg, ?_, iff_of_false (by rwa [abs_neg]) ?_⟩
        · intro hx
          have := round_nonneg (f := binary32) hx
          linarith
        · rw [abs_of_pos hmax] at hbig
          rw [abs_of_neg (by linarith)]
          linarith
      · rw [if_neg hlow]
        exact ⟨_, rfl, representable_round (by decide) x, round_nonneg, Iff.rfl⟩
  · rw [if_neg hfin, clampToHalf]
    have hlarge : ¬|Binary.round binary32 x| < 1 / 2 ^ 25 := by
      intro hsmall
      apply hfin
      refine hsmall.trans ?_
      norm_num
    by_cases hx : x < 0
    · refine ⟨-kFloat16Max, by simp [hx], hneg, fun h => absurd hx (not_lt.mpr h), ?_⟩
      exact iff_of_false (by rwa [abs_neg]) hlarge
    · exact ⟨kFloat16Max, by simp [hx], representable_max, fun _ => hmax.le, iff_of_false hbig hlarge⟩

theorem roundTrips (x : ℚ) : ∃ k, RoundTrips x k := by
  obtain ⟨v, hclamp, hrep, hnonneg, hsmall⟩ := exists_clamped x
  have hle := clamped_le hclamp
  obtain ⟨k, hk, hlt, hk0, hzero⟩ := halved_float hrep hle
  refine ⟨k, ⟨?_, hlt, fun hx => hk0 (hnonneg hx), hzero.trans hsmall⟩⟩
  rw [roundTripFloat16, floatToFloat16Bits_clamped hclamp hle, hk]

end Onnxsim.BlockQuant.Halves
