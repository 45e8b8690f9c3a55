import Mathlib.Tactic.LinearCombination
import Onnxsim.BlockQuant.Halves
import Onnxsim.Lib.Minifloats

namespace Onnxsim.Narrowing.Encoders

open Lib.Minifloats
open BlockQuant.Halves (normalizeHalf normalizeHalf_spec)

def half : Layout := ⟨10, 15, 15, 0x7BFF⟩

def isNan (value : Nat) : Bool := 0x7F800000 < value % 2 ^ 31

/-- Floats are their bit patterns. An infinity has the value of the next power of two here, which compares alike. -/
def clamp (maxValue value : Nat) : Nat :=
  if single.value maxValue < single.value value then maxValue
  else if single.value value < single.value (2 ^ 31 + maxValue) then 2 ^ 31 + maxValue
  else value

/-- 65504.0f -/
def kFloat16Max : Nat := 0x477FE000

def floatToFloat16Bits (value : Nat) : Nat :=
  if isNan value then 0x7E00
  else
    let bits := clamp kFloat16Max value
    let sign := bits / 2 ^ 31 % 2 * 2 ^ 15
    let exp32 : Nat := bits / 2 ^ 23 % 2 ^ 8
    let mant32 := bits % 2 ^ 23
    if exp32 = 0 ∧ mant32 = 0 then sign
    else
      let exp16 : Int := exp32 - 127 + 15
      if exp16 ≤ 0 then
        if exp16 < -10 then sign
        else
          let m := mant32 + 2 ^ 23
          let shift := (14 - exp16).toNat
          sign + (m / 2 ^ shift + if 2 ^ (shift - 1) ≤ m % 2 ^ shift then 1 else 0)
      else
        let rounded := mant32 + 2 ^ 12
        if rounded / 2 ^ 23 % 2 = 1 then sign + (exp16 + 1).toNat * 2 ^ 10
        else sign + exp16.toNat * 2 ^ 10 + rounded / 2 ^ 13

def float16BitsToFloat32 (h : Nat) : Nat :=
  let sign := h / 2 ^ 15 % 2 * 2 ^ 31
  let exp := h / 2 ^ 10 % 2 ^ 5
  let mant := h % 2 ^ 10
  if exp = 0 then
    if mant = 0 then sign
    else
      let (mant, exp) := normalizeHalf 10 mant 1
      sign + ((exp + (127 - 15)).toNat * 2 ^ 23 + mant % 2 ^ 10 * 2 ^ 13)
  else if exp = 0x1F then sign + 0x7F800000 + mant * 2 ^ 13
  else sign + ((exp + (127 - 15)) * 2 ^ 23 + mant * 2 ^ 13)

inductive Float8Format where
  | e4m3fn
  | e5m2

def Float8Format.layout : Float8Format → Layout
  | e4m3fn => ⟨3, 7, 7, 0x7E⟩
  | e5m2 => ⟨2, 15, 7, 0x7B⟩

/-- What a shift by `k` multiplies or divides by; a shift by 32 or more is undefined. -/
def shifted (k : Nat) : Option Nat := if k < 32 then some (2 ^ k) else none

def roundShift (m shift : Nat) : Option Nat := do
  let unit ← shifted shift
  let halfway ← shifted ((shift + (2 ^ 32 - 1)) % 2 ^ 32)
  return m / unit + if halfway < m % unit ∨ m % unit = halfway ∧ m / unit % 2 ≠ 0 then 1 else 0

def floatToFloat8BitsOf (value mantissaBits bias maxValue nanPattern : Nat) : Option Nat :=
  if isNan value then some nanPattern
  else
    let bits := clamp maxValue value
    let sign8 := bits / 2 ^ 31 % 2 * 2 ^ 7
    let exp32 : Nat := bits / 2 ^ 23 % 2 ^ 8
    let mant32 := bits % 2 ^ 23
    if exp32 = 0 ∧ mant32 = 0 then some sign8
    else
      let expNarrow : Int := exp32 - 127 + bias
      if expNarrow ≤ 0 then
        if expNarrow < -mantissaBits then some sign8
        else do
          let rounded ← roundShift (mant32 + 2 ^ 23) (24 - mantissaBits - expNarrow).toNat
          return sign8 + rounded
      else do
        let rounded ← roundShift mant32 (23 - mantissaBits)
        let leading ← shifted mantissaBits
        if rounded / leading % 2 ≠ 0 then return sign8 + (expNarrow + 1).toNat * leading
        else return sign8 + expNarrow.toNat * leading + rounded

def kFloat8Max : Float8Format → Nat
  | .e4m3fn => 0x43E00000
  | .e5m2 => 0x47600000

def floatToFloat8Bits (value : Nat) : Float8Format → Option Nat
  | .e5m2 => floatToFloat8BitsOf value 2 15 (kFloat8Max .e5m2) 0x7D
  | .e4m3fn => floatToFloat8BitsOf value 3 7 (kFloat8Max .e4m3fn) 0x7F

variable {value code t s : Nat}

theorem abs_single (h : code < 2 ^ 31) : single.value code = single.size code ∧
    single.value (2 ^ 31 + code) = -single.size code := by
  have hzero := word_fields (n := 31) (s := 0) h
  have hone := word_fields (n := 31) (s := 1) h
  rw [Nat.zero_mul, Nat.zero_add] at hzero
  rw [Nat.one_mul] at hone
  rw [Layout.value, Layout.value, show single.sign = 31 from rfl, hzero.1, hzero.2, hone.1, hone.2, pow_zero, pow_one,
    one_mul, neg_one_mul]
  exact ⟨rfl, rfl⟩

theorem clamp_spec (ht : t < 2 ^ 31) (hv : value < 2 ^ 32) : ∃ code ≤ t,
    clamp t value = value / 2 ^ 31 * 2 ^ 31 + code ∧
      (-1) ^ (value / 2 ^ 31) * single.size code = max (-single.size t) (min (single.size t) (single.value value)) := by
  have hmod := Nat.mod_lt value (Nat.two_pow_pos 31)
  have hsplit := Nat.div_add_mod' value (2 ^ 31)
  have hs : value / 2 ^ 31 < 2 := by omega
  have hmono := single.size_strictMono
  obtain ⟨htop, hbottom⟩ := abs_single ht
  have htpos := single.size_nonneg t
  generalize value / 2 ^ 31 = s at hsplit hs ⊢
  generalize value % 2 ^ 31 = c at hsplit hmod
  subst hsplit
  obtain ⟨hpos, hneg⟩ := abs_single hmod
  have hcpos := single.size_nonneg c
  rw [clamp, htop, hbottom]
  interval_cases s
  · simp only [Nat.zero_mul, Nat.zero_add, hpos, pow_zero, one_mul]
    by_cases hbig : single.size t < single.size c
    · exact ⟨t, le_rfl, if_pos hbig, by rw [min_eq_left hbig.le, max_eq_right (by linarith)]⟩
    · refine ⟨c, hmono.le_iff_le.mp (not_lt.mp hbig), ?_, ?_⟩
      · rw [if_neg hbig, if_neg (by linarith)]
      · rw [min_eq_right (not_lt.mp hbig), max_eq_right (by linarith)]
  · rw [Nat.one_mul, hneg, min_eq_right (show -single.size c ≤ single.size t by linarith), if_neg (by linarith)]
    simp only [pow_one, neg_one_mul]
    by_cases hbig : single.size t < single.size c
    · exact ⟨t, le_rfl, if_pos (neg_lt_neg hbig), (max_eq_left (by linarith)).symm⟩
    · exact ⟨c, hmono.le_iff_le.mp (not_lt.mp hbig), if_neg (by linarith), (max_eq_right (by linarith)).symm⟩

theorem single_fields (hs : s < 2) (hc : code < 2 ^ 31) : (s * 2 ^ 31 + code) / 2 ^ 31 % 2 = s ∧
    (s * 2 ^ 31 + code) / 2 ^ 23 % 2 ^ 8 = code / 2 ^ 23 ∧ (s * 2 ^ 31 + code) % 2 ^ 23 = code % 2 ^ 23 := by omega

theorem not_nan (h : value % 2 ^ 31 ≤ 0x7F800000) : ¬isNan value = true := by
  rw [isNan, decide_eq_true_iff]
  omega

variable {h : Nat}

theorem bump_away (n k : Nat) : bump true n k = if 2 ^ (k - 1) ≤ n % 2 ^ k then 1 else 0 := by
  rw [bump]
  exact if_congr (by rw [le_iff_lt_or_eq, and_iff_left rfl, eq_comm]) rfl rfl

theorem narrows_half : Narrows half Away (fun _ => true) 112 where
  prefer c := Nat.lt_succ_self c
  mantissa := by decide
  bias := by decide
  biases := rfl
  low := by decide
  top := by decide

theorem floatToFloat16Bits_eq (hnan : ¬isNan value = true) (hs : s < 2) (hcode : code ≤ kFloat16Max)
    (hclamp : clamp kFloat16Max value = s * 2 ^ 31 + code) :
    floatToFloat16Bits value = s * 2 ^ 15 + narrow (fun _ => true) 10 112 code := by
  rw [kFloat16Max] at hcode
  obtain ⟨hsign, hexp, hmant⟩ := single_fields hs (show code < 2 ^ 31 by omega)
  rw [floatToFloat16Bits, if_neg hnan, hclamp]
  dsimp only
  rw [hsign, hexp, hmant, narrow]
  dsimp only
  have he : code / 2 ^ 23 ≤ 142 := by omega
  have hm := Nat.mod_lt code (Nat.two_pow_pos 23)
  generalize code / 2 ^ 23 = e at he ⊢
  generalize code % 2 ^ 23 = m at hm ⊢
  by_cases hzero : e = 0 ∧ m = 0
  · rw [if_pos hzero, if_pos (by omega), Nat.add_zero]
  · rw [if_neg hzero]
    by_cases hsmall : e + 10 < 112
    · rw [if_pos (by omega), if_pos (by omega), if_pos hsmall, Nat.add_zero]
    · by_cases hsub : e ≤ 112
      · have hshift : (14 - ((e : Int) - 127 + 15)).toNat = 24 - 10 + (112 - e) := by omega
        rw [if_pos (by omega), if_neg (by omega), if_neg hsmall, if_pos hsub, hshift, bump_away, Nat.add_comm m]
      · rw [if_neg (by omega), if_neg hsmall, if_neg hsub, bump_away]
        split <;> split <;> omega

theorem size_single (c : Nat) : single.size c = magnitude 23 c / 2 ^ 149 :=
  congrArg (fun k => (magnitude 23 c : ℚ) / 2 ^ k) (show 127 + 23 - 1 = 149 from rfl)

theorem size_half (c : Nat) : half.size c = magnitude 10 c / 2 ^ 24 :=
  congrArg (fun k => (magnitude 10 c : ℚ) / 2 ^ k) (show 15 + 10 - 1 = 24 from rfl)

theorem size_max : single.size kFloat16Max = half.size half.top ∧ single.size kFloat16Max = 65504 := by
  constructor <;> norm_num [Layout.size, single, half, magnitude, kFloat16Max]

theorem floatToFloat16Bits_rounds (hv : value < 2 ^ 32) (hnum : value % 2 ^ 31 ≤ 0x7F800000) :
    Rounds half Away (max (-65504) (min 65504 (single.value value))) (floatToFloat16Bits value) ∧
      floatToFloat16Bits value / 2 ^ 15 = value / 2 ^ 31 := by
  obtain ⟨code, hcode, hclamp, hvalue⟩ := clamp_spec (t := kFloat16Max) (by decide) hv
  have hs : value / 2 ^ 31 < 2 := by omega
  rw [← size_max.2, ← hvalue, floatToFloat16Bits_eq (not_nan hnum) hs hcode hclamp]
  exact rounds_narrow narrows_half hs size_max.1 hcode

theorem normalizeHalf_bounds (turns mant : Nat) (exp : Int) :
    exp - turns ≤ (normalizeHalf turns mant exp).2 ∧ (normalizeHalf turns mant exp).2 ≤ exp := by
  induction turns generalizing mant exp with
  | zero => exact ⟨by simp [normalizeHalf], le_rfl⟩
  | succ turns ih =>
    rw [normalizeHalf]
    split
    · obtain ⟨hlo, hhi⟩ := ih (mant * 2) (exp - 1)
      omega
    · omega

theorem code_le_max {e m : Nat} (he : e ≤ 142) (hm : m < 2 ^ 10) : e * 2 ^ 23 + m * 2 ^ 13 ≤ kFloat16Max := by
  rw [kFloat16Max]
  omega

theorem float16BitsToFloat32_eq (hfin : half.Finite h) : ∃ code ≤ kFloat16Max,
    float16BitsToFloat32 h = h / 2 ^ 15 * 2 ^ 31 + code ∧ single.size code = half.size (h % 2 ^ 15) := by
  obtain ⟨hlt, hle⟩ := hfin
  rw [show half.sign = 15 from rfl] at hlt hle
  rw [show half.top = 0x7BFF from rfl] at hle
  have hsign : h / 2 ^ 15 % 2 = h / 2 ^ 15 := by omega
  have hexp : h / 2 ^ 10 % 2 ^ 5 = h % 2 ^ 15 / 2 ^ 10 := by omega
  have hmant : h % 2 ^ 10 = h % 2 ^ 15 % 2 ^ 10 := by omega
  rw [float16BitsToFloat32, hsign, hexp, hmant]
  generalize h / 2 ^ 15 = s
  generalize h % 2 ^ 15 = c at hle ⊢
  have he : c / 2 ^ 10 ≤ 30 := by omega
  clear hle
  have hm := Nat.mod_lt c (Nat.two_pow_pos 10)
  have hsplit := Nat.div_add_mod' c (2 ^ 10)
  generalize c / 2 ^ 10 = e at he hsplit ⊢
  generalize c % 2 ^ 10 = m at hm hsplit ⊢
  subst hsplit
  cases e with
  | zero =>
    rw [if_pos rfl, Nat.zero_mul, Nat.zero_add]
    by_cases hzero : m = 0
    · subst hzero
      exact ⟨0, by decide, by rw [if_pos rfl, Nat.add_zero], by rw [single.size_zero, half.size_zero]⟩
    rw [if_neg hzero]
    obtain ⟨hlt, hle, hval⟩ := normalizeHalf_spec 10 m 1 (by omega) (by omega)
    obtain ⟨hlo, hhi⟩ := normalizeHalf_bounds 10 m 1
    generalize normalizeHalf 10 m 1 = normal at hlt hle hval hlo hhi ⊢
    obtain ⟨m', e'⟩ := normal
    dsimp only at hlt hle hval hlo hhi ⊢
    obtain ⟨n, hn⟩ := Int.eq_ofNat_of_zero_le (show 0 ≤ e' + (127 - 15) - 1 by omega)
    obtain rfl : e' = n - 111 := by omega
    have hexp : ((n : Int) - 111 + (127 - 15)).toNat = n + 1 := by omega
    rw [hexp]
    refine ⟨(n + 1) * 2 ^ 23 + m' % 2 ^ 10 * 2 ^ 13, code_le_max (by omega) (Nat.mod_lt _ (Nat.two_pow_pos _)), rfl, ?_⟩
    have hmod : 2 ^ 23 + m' % 2 ^ 10 * 2 ^ 13 = m' * 2 ^ 13 := by omega
    rw [zpow_sub₀ two_ne_zero, zpow_natCast, zpow_one] at hval
    rw [size_single, size_half, magnitude_fields n.succ_pos (by omega), magnitude_of_lt hm, hmod, Nat.succ_sub_one]
    push_cast
    rw [div_eq_div_iff (by positivity) (by positivity)]
    have hpow : (m' : ℚ) * 2 ^ n = m * 2 * 2 ^ 111 := by
      rw [← hval]
      field_simp
    linear_combination (2 : ℚ) ^ 37 * hpow
  | succ e =>
    rw [if_neg e.succ_ne_zero, if_neg (by omega)]
    refine ⟨(e + 113) * 2 ^ 23 + m * 2 ^ 13, code_le_max (by omega) hm, rfl, ?_⟩
    rw [size_single, size_half, magnitude_fields (by omega) (by omega), magnitude_fields e.succ_pos hm,
      Nat.succ_sub_one, Nat.succ_sub_one, pow_add]
    push_cast
    rw [div_eq_div_iff (by positivity) (by positivity)]
    ring

theorem value_float16BitsToFloat32 (hfin : half.Finite h) : single.value (float16BitsToFloat32 h) = half.value h ∧
    float16BitsToFloat32 h / 2 ^ 31 = h / 2 ^ 15 ∧ float16BitsToFloat32 h % 2 ^ 31 ≤ kFloat16Max := by
  obtain ⟨code, hcode, heq, hsize⟩ := float16BitsToFloat32_eq hfin
  obtain ⟨hdiv, hmod⟩ := word_fields (n := 31) (s := h / 2 ^ 15) (hcode.trans_lt (by decide))
  rw [heq, Layout.value, show single.sign = 31 from rfl, hdiv, hmod, hsize]
  exact ⟨rfl, rfl, hcode⟩

theorem floatToFloat16Bits_float16BitsToFloat32 (hfin : half.Finite h) :
    floatToFloat16Bits (float16BitsToFloat32 h) = h := by
  obtain ⟨hvalue, hdiv, hmod⟩ := value_float16BitsToFloat32 hfin
  have hs : h < 2 ^ 16 := hfin.1
  rw [kFloat16Max] at hmod
  have hbound : |half.value h| ≤ 65504 := by
    rw [half.abs_value]
    exact (half.size_strictMono.monotone hfin.2).trans_eq (size_max.1.symm.trans size_max.2)
  obtain ⟨hrounds, hsign⟩ := @floatToFloat16Bits_rounds (float16BitsToFloat32 h) (by omega) (by omega)
  rw [hvalue, min_eq_right (le_of_abs_le hbound), max_eq_right (neg_le_of_abs_le hbound)] at hrounds
  exact hrounds.exact hfin (hsign.trans hdiv)

/-- Every finite float goes to the nearest half, in order, and a half comes back from its float. -/
theorem half_encoder_exact :
    (∀ f, single.Finite f →
      Rounds half Away (max (-65504) (min 65504 (single.value f))) (floatToFloat16Bits f)) ∧
    (∀ f g, single.Finite f → single.Finite g → single.value f ≤ single.value g →
      half.value (floatToFloat16Bits f) ≤ half.value (floatToFloat16Bits g)) ∧
    ∀ h, half.Finite h → floatToFloat16Bits (float16BitsToFloat32 h) = h := by
  have hrounds : ∀ f, single.Finite f →
      Rounds half Away (max (-65504) (min 65504 (single.value f))) (floatToFloat16Bits f) := by
    intro f hf
    exact (floatToFloat16Bits_rounds hf.1 (hf.2.trans (by decide))).1
  refine ⟨hrounds, fun f g hf hg hle => ?_, fun h => floatToFloat16Bits_float16BitsToFloat32⟩
  exact (hrounds f hf).mono (fun r c => Nat.lt_asymm) (hrounds g hg) (max_le_max_left _ (min_le_min_left _ hle))

theorem half_encoder_exact_one : Rounds half Away (max (-65504) (min 65504 (single.value 0x3F800000)))
    (floatToFloat16Bits 0x3F800000) ∧ floatToFloat16Bits (float16BitsToFloat32 0x3C00) = 0x3C00 :=
  ⟨half_encoder_exact.1 _ ⟨by decide, by decide⟩, half_encoder_exact.2.2 _ ⟨by decide, by decide⟩⟩

variable {m k w bias d p f : Nat}

def odd (c : Nat) : Bool := c % 2 = 1

theorem narrows_float8 (format : Float8Format) : Narrows format.layout ToEven odd (127 - format.layout.bias) where
  prefer c := by
    rw [odd, ToEven, ToEven]
    split <;> simp_all <;> omega
  mantissa := by cases format <;> decide
  bias := by cases format <;> decide
  biases := by cases format <;> rfl
  low := by cases format <;> decide
  top := by cases format <;> decide

theorem roundShift_eq (hk : 0 < k) (hk' : k < 32) :
    roundShift m k = some (m / 2 ^ k + bump (odd (m / 2 ^ k)) m k) := by
  have hpred : (k + (2 ^ 32 - 1)) % 2 ^ 32 = k - 1 := by omega
  rw [roundShift, hpred, shifted, shifted, if_pos hk', if_pos (by omega), bump, odd]
  refine congrArg (fun b => some (m / 2 ^ k + b)) (if_congr ?_ rfl rfl)
  rw [decide_eq_true_iff, Nat.mod_two_ne_zero]

/-- A carry out of the mantissa ends up in the exponent. -/
theorem carried {e r : Nat} (hr : r ≤ 2 ^ w) :
    (if r / 2 ^ w % 2 ≠ 0 then (e + 1) * 2 ^ w else e * 2 ^ w + r) = e * 2 ^ w + r := by
  have hpos := Nat.two_pow_pos w
  rcases hr.lt_or_eq with hlt | rfl
  · rw [Nat.div_eq_of_lt hlt, if_neg (by decide)]
  · rw [Nat.div_self hpos, if_pos (by decide), Nat.succ_mul]

theorem floatToFloat8BitsOf_eq {nanPattern : Nat} (hw : 1 ≤ w ∧ w ≤ 7) (hd : d + bias = 127) (hlow : w < d)
    (hnan : ¬isNan value = true) (hs : s < 2) (hcode : code < 2 ^ 31) (hclamp : clamp t value = s * 2 ^ 31 + code) :
    floatToFloat8BitsOf value w bias t nanPattern = some (s * 2 ^ 7 + narrow odd w d code) := by
  obtain ⟨hsign, hexp, hmant⟩ := single_fields hs hcode
  rw [floatToFloat8BitsOf, if_neg hnan, hclamp]
  dsimp only
  rw [hsign, hexp, hmant, narrow]
  have hm := Nat.mod_lt code (Nat.two_pow_pos 23)
  generalize code / 2 ^ 23 = e
  generalize code % 2 ^ 23 = m at hm ⊢
  by_cases hzero : e = 0 ∧ m = 0
  · rw [if_pos hzero, if_pos (by omega), Nat.add_zero]
  rw [if_neg hzero]
  by_cases hsmall : e + w < d
  · rw [if_pos (by omega), if_pos (by omega), if_pos hsmall, Nat.add_zero]
  by_cases hsub : e ≤ d
  · have hshift : (24 - (w : Int) - ((e : Int) - 127 + bias)).toNat = 24 - w + (d - e) := by omega
    rw [if_pos (by omega), if_neg (by omega), if_neg hsmall, if_pos hsub, hshift, roundShift_eq (by omega) (by omega),
      Nat.add_comm m]
    rfl
  · have hpow : 2 ^ 23 = 2 ^ w * 2 ^ (23 - w) := by rw [← pow_add, Nat.add_sub_cancel' (by omega)]
    have hq : m / 2 ^ (23 - w) < 2 ^ w := by
      rw [Nat.div_lt_iff_lt_mul (Nat.two_pow_pos _), ← hpow]
      exact hm
    have hodd : odd ((e - d) * 2 ^ w + m / 2 ^ (23 - w)) = odd (m / 2 ^ (23 - w)) := by
      obtain ⟨v, rfl⟩ := Nat.exists_eq_succ_of_ne_zero (show w ≠ 0 by omega)
      rw [odd, odd, Nat.pow_succ, ← Nat.mul_assoc, Nat.mul_add_mod_self_right]
    have hround : m / 2 ^ (23 - w) + bump (odd (m / 2 ^ (23 - w))) m (23 - w) ≤ 2 ^ w := by
      rw [bump]
      split <;> omega
    have he : ((e : Int) - 127 + bias).toNat = e - d ∧ ((e : Int) - 127 + bias + 1).toNat = e - d + 1 := by omega
    have hcarried := carried (e := e - d) hround
    rw [if_neg (by omega), if_neg hsmall, if_neg hsub, roundShift_eq (by omega) (by omega), he.1, he.2, hodd, Nat.add_assoc,
      ← hcarried]
    simp only [shifted, if_pos (show w < 32 by omega), Option.bind_eq_bind, Option.bind_some, pure]
    split
    · rfl
    · rw [Nat.add_assoc]

theorem size_max8 (format : Float8Format) : single.size (kFloat8Max format) = format.layout.size format.layout.top := by
  cases format <;> norm_num [Layout.size, single, Float8Format.layout, magnitude, kFloat8Max]

def Float8Format.max (format : Float8Format) : ℚ := format.layout.size format.layout.top

theorem floatToFloat8Bits_rounds (format : Float8Format) (hv : value < 2 ^ 32) (hnum : value % 2 ^ 31 ≤ 0x7F800000) :
    ∃ p, floatToFloat8Bits value format = some p ∧ p / 2 ^ 7 = value / 2 ^ 31 ∧
      Rounds format.layout ToEven (max (-format.max) (min format.max (single.value value))) p := by
  obtain ⟨code, hcode, hclamp, hvalue⟩ := clamp_spec (t := kFloat8Max format) (by cases format <;> decide) hv
  have hs : value / 2 ^ 31 < 2 := by omega
  have hcode' : code < 2 ^ 31 := hcode.trans_lt (by cases format <;> decide)
  obtain ⟨hrounds, hsign⟩ := rounds_narrow (narrows_float8 format) hs (size_max8 format) hcode
  rw [hvalue, size_max8] at hrounds
  cases format with
  | e4m3fn => exact ⟨_, floatToFloat8BitsOf_eq (by decide) rfl (by decide) (not_nan hnum) hs hcode' hclamp, hsign, hrounds⟩
  | e5m2 => exact ⟨_, floatToFloat8BitsOf_eq (by decide) rfl (by decide) (not_nan hnum) hs hcode' hclamp, hsign, hrounds⟩

/-- The float of a word: the one with its value and its sign. -/
structure FloatOf (format : Float8Format) (p f : Nat) : Prop where
  lt : f < 2 ^ 32
  number : f % 2 ^ 31 ≤ 0x7F800000
  value : single.value f = format.layout.value p
  sign : f / 2 ^ 31 = p / 2 ^ 7

def widen (w d c : Nat) : Nat :=
  if 2 ^ w ≤ c then (c / 2 ^ w + d) * 2 ^ 23 + c % 2 ^ w * 2 ^ (23 - w)
  else if c = 0 then 0
  else (d - w + 1 + c.log2) * 2 ^ 23 + (c - 2 ^ c.log2) * 2 ^ (23 - c.log2)

theorem widen_spec (format : Float8Format) : ∀ c < 2 ^ 7,
    widen format.layout.mantissa (127 - format.layout.bias) c < 0x7F800000 ∧
      magnitude 23 (widen format.layout.mantissa (127 - format.layout.bias) c) *
        2 ^ (format.layout.bias + format.layout.mantissa - 1) = magnitude format.layout.mantissa c * 2 ^ 149 := by
  cases format <;> decide +kernel

theorem exists_floatOf (format : Float8Format) (hp : format.layout.Finite p) : ∃ f, FloatOf format p f := by
  have hsign : format.layout.sign = 7 := by cases format <;> rfl
  have hlt := hp.1
  rw [hsign] at hlt
  obtain ⟨hcode, heq⟩ := widen_spec format (p % 2 ^ 7) (Nat.mod_lt _ (by decide))
  obtain ⟨hdiv, hmod⟩ := word_fields (n := 31) (s := p / 2 ^ 7) (hcode.trans (by decide))
  have hsize : single.size (widen format.layout.mantissa (127 - format.layout.bias) (p % 2 ^ 7)) =
      format.layout.size (p % 2 ^ 7) := by
    rw [size_single, Layout.size, div_eq_div_iff (by positivity) (by positivity)]
    exact_mod_cast heq
  refine ⟨_, by omega, hmod.trans_le hcode.le, ?_, hdiv⟩
  rw [Layout.value, Layout.value, show single.sign = 31 from rfl, hdiv, hmod, hsize, hsign]

theorem floatToFloat8Bits_exact (format : Float8Format) (hp : format.layout.Finite p) (hf : FloatOf format p f) :
    floatToFloat8Bits f format = some p := by
  obtain ⟨q, hq, hsign, hrounds⟩ := floatToFloat8Bits_rounds format hf.lt hf.number
  have hbound : |format.layout.value p| ≤ format.max := by
    rw [format.layout.abs_value]
    exact format.layout.size_strictMono.monotone hp.2
  rw [hf.value, min_eq_right (le_of_abs_le hbound), max_eq_right (neg_le_of_abs_le hbound)] at hrounds
  have hsign7 : format.layout.sign = 7 := by cases format <;> rfl
  rw [hq, hrounds.exact hp (by rw [hsign7, hsign, hf.sign])]

/-- No shift of the encoder is undefined, and every float that is a number goes to the nearest float8 of its sign, in
order, and by itself when it is the float of one. -/
theorem float8_encoder_exact (format : Float8Format) :
    (∀ f < 2 ^ 32, f % 2 ^ 31 ≤ 0x7F800000 → ∃ p, floatToFloat8Bits f format = some p ∧ p / 2 ^ 7 = f / 2 ^ 31 ∧
      Rounds format.layout ToEven (max (-format.max) (min format.max (single.value f))) p) ∧
    (∀ f < 2 ^ 32, ∀ g < 2 ^ 32, f % 2 ^ 31 ≤ 0x7F800000 → g % 2 ^ 31 ≤ 0x7F800000 →
      single.value f ≤ single.value g → ∀ p q, floatToFloat8Bits f format = some p →
        floatToFloat8Bits g format = some q → format.layout.value p ≤ format.layout.value q) ∧
    ∀ p, format.layout.Finite p →
      (∃ f, FloatOf format p f) ∧ ∀ f, FloatOf format p f → floatToFloat8Bits f format = some p := by
  refine ⟨fun f hf hn => floatToFloat8Bits_rounds format hf hn, ?_, fun p hp => ?_⟩
  · intro f hf g hg hfn hgn hle p q hp hq
    obtain ⟨p', hp', -, hround⟩ := floatToFloat8Bits_rounds format hf hfn
    obtain ⟨q', hq', -, hround'⟩ := floatToFloat8Bits_rounds format hg hgn
    obtain rfl := Option.some.inj (hp.symm.trans hp')
    obtain rfl := Option.some.inj (hq.symm.trans hq')
    refine hround.mono (fun r c h h' => ?_) hround' (max_le_max_left _ (min_le_min_left _ hle))
    exact absurd (h.1.symm.trans h'.2) (by decide)
  · exact ⟨exists_floatOf format hp, fun f hf => floatToFloat8Bits_exact format hp hf⟩

theorem float8_encoder_exact_one : ∃ p, floatToFloat8Bits 0x3F800000 .e4m3fn = some p ∧ p / 2 ^ 7 = 0 ∧
    ∃ f, FloatOf .e4m3fn 1 f := by
  obtain ⟨p, hp, hsign, -⟩ := (float8_encoder_exact .e4m3fn).1 0x3F800000 (by decide) (by decide)
  exact ⟨p, hp, hsign, ((float8_encoder_exact .e4m3fn).2.2 1 ⟨by decide, by decide⟩).1⟩

end Onnxsim.Narrowing.Encoders
