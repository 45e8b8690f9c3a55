import Mathlib.Data.Rat.Floor
import Onnxsim.Lib.Binary

namespace Onnxsim.BlockQuant.Doubles

open Lib Lib.Binary

section

def binary64 : Format := ⟨53, -1074⟩

def binary32 : Format := ⟨24, -149⟩

/-- A `double`. The two zeros are one here: every zero that the code divides by is positive. -/
inductive Double where
  | nan
  | inf (negative : Bool)
  | fin (q : ℚ)
deriving DecidableEq

open Double

def ofExact (q : ℚ) : Double := if |Binary.round binary64 q| < 2 ^ 1024 then fin (Binary.round binary64 q) else inf (q < 0)

def Double.neg : Double → Double
  | nan => nan
  | inf s => inf (!s)
  | fin q => fin (-q)

def Double.add : Double → Double → Double
  | fin x, fin y => ofExact (x + y)
  | nan, _ | _, nan => nan
  | inf s, inf t => if s = t then inf s else nan
  | inf s, fin _ | fin _, inf s => inf s

def Double.sub (x y : Double) : Double := x.add y.neg

def Double.mul : Double → Double → Double
  | fin x, fin y => ofExact (x * y)
  | nan, _ | _, nan => nan
  | inf s, inf t => inf (s != t)
  | inf s, fin q | fin q, inf s => if q = 0 then nan else inf (s != decide (q < 0))

def Double.div : Double → Double → Double
  | fin x, fin y => if y = 0 then (if x = 0 then nan else inf (x < 0)) else ofExact (x / y)
  | nan, _ | _, nan => nan
  | inf _, inf _ => nan
  | inf s, fin y => inf (s != decide (y < 0))
  | fin _, inf _ => fin 0

/-- `x < y`, which is false for what is not a number. -/
def Double.lt : Double → Double → Bool
  | nan, _ | _, nan => false
  | inf s, inf t => s && !t
  | inf s, fin _ => s
  | fin _, inf t => !t
  | fin x, fin y => x < y

/-- `std::max` -/
def Double.max (x y : Double) : Double := if x.lt y then y else x

/-- `std::min` -/
def Double.min (x y : Double) : Double := if y.lt x then y else x

def Double.fabs : Double → Double
  | nan => nan
  | inf _ => inf false
  | fin q => fin |q|

def roundAway (q : ℚ) : Int := if 0 ≤ q then ⌊q + 1 / 2⌋ else ⌈q - 1 / 2⌉

/-- `std::round` -/
def Double.round : Double → Double
  | nan => nan
  | inf s => inf s
  | fin q => fin (roundAway q)

/-- The double that `1e-12` denotes. -/
def tiny : Double := ofExact (1 / 10 ^ 12)

/-- A weight of a block: a finite double. -/
structure Weight where
  value : ℚ
  representable : Representable binary64 value
  bounded : |value| < 2 ^ 1024

end

theorem one_le_precision64 : 1 ≤ binary64.precision := by decide

theorem ofExact_of_grid {q : ℚ} {k : Int} (hq : q = k / 2 ^ 24) (hk : |k| < 2 ^ 53) : ofExact q = .fin q := by
  have hrep : Representable binary64 q := by
    refine ⟨k, -24, hk, by decide, ?_⟩
    rw [hq, div_eq_mul_inv]
    norm_num
  have hlt : |q| < 2 ^ 1024 := by
    have hk' : |(k : ℚ)| < 2 ^ 53 := by exact_mod_cast hk
    rw [hq, abs_div, abs_of_pos (show (0 : ℚ) < 2 ^ 24 by positivity), div_lt_iff₀ (by positivity)]
    refine hk'.trans_le ?_
    rw [← pow_add]
    exact pow_le_pow_right₀ one_le_two (by norm_num)
  rw [ofExact, round_exact hrep, if_pos hlt]

theorem ofExact_cases (q : ℚ) : ofExact q = .fin (Binary.round binary64 q) ∨ ofExact q = .inf (q < 0) := by
  rw [ofExact]
  split
  · exact .inl rfl
  · exact .inr rfl

end Onnxsim.BlockQuant.Doubles

namespace Onnxsim.BlockQuant.Halves

open Lib Lib.Binary Doubles

/-- `static_cast<float>` -/
def toFloat : Double → Double
  | .fin q => if |Binary.round binary32 q| < 2 ^ 128 then .fin (Binary.round binary32 q) else .inf (q < 0)
  | x => x

def floatBits (v : ℚ) : Nat :=
  if v = 0 then 0
  else
    (if v < 0 then 1 else 0) * 2 ^ 31 +
      ((significand binary32 v).natAbs + (quantum binary32 v + 149).toNat * 2 ^ 23)

/-- The number whose float has these fields, `e` being neither zero nor all ones. -/
def floatOfFields (negative : Bool) (e : Int) (mant : Nat) : Double :=
  .fin ((if negative then -1 else 1) * ((2 ^ 23 + mant : Nat) * 2 ^ (e - 150)))

def kFloat16Max : ℚ := 65504

def clampToHalf : Double → Option ℚ
  | .nan => none
  | .inf negative => some (if negative then -kFloat16Max else kFloat16Max)
  | .fin v => some (if kFloat16Max < v then kFloat16Max else if v < -kFloat16Max then -kFloat16Max else v)

/-- The shifts and masks of `FloatToFloat16Bits` are quotients and remainders here. -/
def floatToFloat16Bits (value : Double) : Nat :=
  match clampToHalf value with
  | none => 0x7E00
  | some v =>
    let bits := floatBits v
    let sign := bits / 2 ^ 31 % 2 * 2 ^ 15
    let exp32 : Nat := bits / 2 ^ 23 % 2 ^ 8
    let mant32 := bits % 2 ^ 23
    if exp32 = 0 ∧ mant32 = 0 then sign
    else
      let exp16 : Int := (exp32 : Int) - 127 + 15
      if exp16 ≤ 0 then
        if exp16 < -10 then sign
        else
          let m := mant32 + 2 ^ 23
          let shift := (14 - exp16).toNat
          sign + (m / 2 ^ shift + if 2 ^ (shift - 1) ≤ m % 2 ^ shift then 1 else 0)
      else if (mant32 + 2 ^ 12) / 2 ^ 23 % 2 = 1 then sign + (exp16 + 1).toNat * 2 ^ 10
      else sign + exp16.toNat * 2 ^ 10 + (mant32 + 2 ^ 12) / 2 ^ 13

/-- The loop that normalises a subnormal half, for ten turns at most. The unsigned exponent that it takes
below zero comes back with the bias that is added to it. -/
def normalizeHalf : Nat → Nat → Int → Nat × Int
  | 0, mant, exp => (mant, exp)
  | turns + 1, mant, exp =>
    if mant / 2 ^ 10 % 2 = 0 then normalizeHalf turns (mant * 2) (exp - 1) else (mant, exp)

def float16BitsToFloat32 (h : Nat) : Double :=
  let negative : Bool := h / 2 ^ 15 % 2 = 1
  let exp := h / 2 ^ 10 % 2 ^ 5
  let mant := h % 2 ^ 10
  if exp = 0 then
    if mant = 0 then .fin 0
    else
      let (mant, exp) := normalizeHalf 10 mant 1
      floatOfFields negative (exp + (127 - 15)) (mant % 2 ^ 10 * 2 ^ 13)
  else if exp = 0x1F then if mant = 0 then .inf negative else .nan
  else floatOfFields negative (exp + (127 - 15)) (mant * 2 ^ 13)

def roundTripFloat16 (value : Double) : Double := float16BitsToFloat32 (floatToFloat16Bits (toFloat value))

theorem normalizeHalf_spec : ∀ (turns mant : Nat) (exp : Int), mant < 2 ^ 11 → 2 ^ 10 ≤ mant * 2 ^ turns →
    (normalizeHalf turns mant exp).1 < 2 ^ 11 ∧ 2 ^ 10 ≤ (normalizeHalf turns mant exp).1 ∧
      ((normalizeHalf turns mant exp).1 : ℚ) * 2 ^ (normalizeHalf turns mant exp).2 = mant * 2 ^ exp := by
  intro turns
  induction turns with
  | zero =>
    intro mant exp hlt hle
    rw [pow_zero, mul_one] at hle
    exact ⟨hlt, hle, rfl⟩
  | succ turns ih =>
    intro mant exp hlt hle
    rw [normalizeHalf]
    by_cases hbit : mant / 2 ^ 10 % 2 = 0
    · rw [if_pos hbit]
      have hdouble : mant * 2 ^ (turns + 1) = mant * 2 * 2 ^ turns := by ring
      obtain ⟨h1, h2, h3⟩ := ih (mant * 2) (exp - 1) (by omega) (hdouble ▸ hle)
      refine ⟨h1, h2, h3.trans ?_⟩
      rw [zpow_sub_one₀ two_ne_zero]
      push_cast
      ring
    · rw [if_neg hbit]
      exact ⟨hlt, by omega, rfl⟩

end Onnxsim.BlockQuant.Halves
