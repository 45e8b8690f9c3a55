import Mathlib.Data.List.GetD
import Onnxsim.Lib.Bytes

namespace Onnxsim.Pruning.Weights

open Lib.Bytes List

/-- `m / 2 ^ s` to nearest, ties to even. -/
def shiftRound (m s : Nat) : Nat :=
  m / 2 ^ s + if 2 ^ (s - 1) < m % 2 ^ s ∨ m % 2 ^ s = 2 ^ (s - 1) ∧ m / 2 ^ s % 2 = 1 then 1 else 0

/-- The float with these fields. Floats and doubles are their bit patterns, which tell the two zeros apart. -/
def single (sign exp mant : Nat) : Nat := sign * 2 ^ 31 + (exp * 2 ^ 23 + mant)

def double (sign exp mant : Nat) : Nat := sign * 2 ^ 63 + (exp * 2 ^ 52 + mant)

def infinity : Nat := 2047 * 2 ^ 52

/-- `(double)f` -/
def toDouble (f : Nat) : Nat :=
  let sign := f / 2 ^ 31
  let exp := f / 2 ^ 23 % 2 ^ 8
  let mant := f % 2 ^ 23
  if exp = 255 then double sign 2047 (mant * 2 ^ 29)
  else if exp ≠ 0 then double sign (exp + 896) (mant * 2 ^ 29)
  else if mant = 0 then double sign 0 0
  else double sign (mant.log2 + 874) ((mant - 2 ^ mant.log2) * 2 ^ (52 - mant.log2))

/-- `(float)d`, to nearest. What is not a number stays so. -/
def toFloat (d : Nat) : Nat :=
  let sign := d / 2 ^ 63
  let exp := d / 2 ^ 52 % 2 ^ 11
  let mant := d % 2 ^ 52
  if exp = 2047 then single sign 255 (if mant = 0 then 0 else max 1 (mant / 2 ^ 29))
  else if exp = 0 then single sign 0 0
  else if exp ≤ 896 then single sign 0 (shiftRound (2 ^ 52 + mant) (926 - exp))
  else single sign 0 (min (255 * 2 ^ 23) ((exp - 897) * 2 ^ 23 + shiftRound (2 ^ 52 + mant) 29))

/-- The loop that looks for a subnormal's leading one, from its second turn on. -/
def normalize : Nat → Nat → Nat → Nat × Nat
  | 0, mant, e => (mant, e)
  | turns + 1, mant, e => if mant / 2 ^ 10 % 2 = 0 then normalize turns (mant * 2) (e + 1) else (mant, e)

def float16BitsToDouble (bits : Nat) : Nat :=
  let sign := bits / 2 ^ 15
  let exp := bits / 2 ^ 10 % 2 ^ 5
  let mant := bits % 2 ^ 10
  toDouble <|
    if exp = 0 then
      if mant = 0 then single sign 0 0
      else
        let (mant, e) := normalize 10 (mant * 2) 0
        single sign (127 - 15 - e) (mant % 2 ^ 10 * 2 ^ 13)
    else if exp = 0x1F then single sign 255 (mant * 2 ^ 13)
    else single sign (exp + 127 - 15) (mant * 2 ^ 13)

def doubleToFloat16Bits (d : Nat) : Nat :=
  let sign := d / 2 ^ 63 * 2 ^ 15
  let exp11 : Nat := d / 2 ^ 52 % 2 ^ 11
  let mant := d % 2 ^ 52
  if exp11 = 0x7FF then sign + 0x7C00 + if mant = 0 then 0 else max 1 (mant / 2 ^ 42)
  else
    let exp : Int := exp11 - 1023 + 15
    if 0x1F ≤ exp then sign + 0x7C00
    else if exp ≤ 0 then
      if exp < -10 then sign else sign + shiftRound (mant + 2 ^ 52) (43 - exp).toNat
    else
      let half := shiftRound mant 42
      -- a carry leaves no mantissa, and the next exponent
      if half = 0x400 then if 0x1F ≤ exp + 1 then sign + 0x7C00 else sign + (exp.toNat + 1) * 2 ^ 10
      else sign + exp.toNat * 2 ^ 10 + half

def bfloat16BitsToDouble (bits : Nat) : Nat := toDouble (bits * 2 ^ 16)

def doubleToBFloat16Bits (d : Nat) : Nat :=
  let x := toFloat d
  if 0x7F800000 < x % 2 ^ 31 then x / 2 ^ 16 ||| 0x0040
  else (x + 0x7FFF + x / 2 ^ 16 % 2) % 2 ^ 32 / 2 ^ 16

variable {n a b : Nat} {transposed : Bool}

section

inductive ElemType where
  | float
  | float16
  | bfloat16
deriving DecidableEq

namespace ElemType

def size : ElemType → Nat
  | float => 4
  | _ => 2

def infinity : ElemType → Nat
  | float => 0x7F800000
  | float16 => 0x7C00
  | bfloat16 => 0x7F80

def widen : ElemType → Nat → Nat
  | float => toDouble
  | float16 => float16BitsToDouble
  | bfloat16 => bfloat16BitsToDouble

def narrow : ElemType → Nat → Nat
  | float => toFloat
  | float16 => doubleToFloat16Bits
  | bfloat16 => doubleToBFloat16Bits

def IsNumber (e : ElemType) (bits : Nat) : Prop := bits % (256 ^ e.size / 2) ≤ e.infinity

end ElemType

/-- A constant: its elements are in `raw`, or in the typed field for their type. -/
structure Tensor where
  elemType : ElemType
  sizes : List Nat
  floats : List (Fin (2 ^ 32)) := []
  int32s : List Int := []
  raw : Option ByteString := none

def readRawDataHostOrder (size numel : Nat) (raw : ByteString) : List Nat :=
  (range numel).map fun i => ofLE ((raw.drop (size * i)).take size)

def writeRawDataLittleEndian (size : Nat) (values : List Nat) : ByteString := values.flatMap (leBytes size)

def Tensor.patterns (t : Tensor) : List Nat :=
  match t.raw, t.elemType with
  | some raw, e => readRawDataHostOrder e.size t.sizes.prod raw
  | none, .float => t.floats.map Fin.val
  | none, _ => t.int32s.map fun code => (code % 2 ^ 16).toNat

/-- The field that is read holds as many elements as the sizes say. -/
def Tensor.Held (t : Tensor) : Prop :=
  match t.raw, t.elemType with
  | some raw, e => raw.length = e.size * t.sizes.prod
  | none, .float => t.floats.length = t.sizes.prod
  | none, _ => t.int32s.length = t.sizes.prod

def readTensorAsF64Flat (t : Tensor) : List Nat := t.patterns.map t.elemType.widen

def writeF64FlatAsTensor (e : ElemType) (sizes data : List Nat) : Tensor :=
  match e with
  | .float => { elemType := e, sizes, floats := data.map fun d => Fin.ofNat (2 ^ 32) (toFloat d) }
  | _ => { elemType := e, sizes, raw := some (writeRawDataLittleEndian 2 (data.map e.narrow)) }

/-- Where the entry at `k` of a `[dim0, dim1]` constant is in the row-major `[N, K]` buffer. -/
def relayout (transposed : Bool) (dim0 dim1 k : Nat) : Nat := if transposed then k else k % dim1 * dim0 + k / dim1

def readWeightNKF64 (transposed : Bool) (dim0 dim1 : Nat) (data : List Nat) : List Nat :=
  (range (dim0 * dim1)).map fun k => data.getD (relayout transposed dim1 dim0 k) 0

def weightNkToOriginalF64 (transposed : Bool) (dim0 dim1 : Nat) (w_nk : List Nat) : List Nat :=
  (range (dim0 * dim1)).map fun k => w_nk.getD (relayout transposed dim0 dim1 k) 0

/-- What the weight belongs to; the merged weight of an attention is that of a MatMul. -/
inductive Kind where
  | matMul (transposed : Bool)
  | conv

def Kind.rank : Kind → Nat
  | matMul _ => 2
  | conv => 4

/-- A weight that a matcher accepts. -/
structure Weight where
  kind : Kind
  tensor : Tensor
  ranked : tensor.sizes.length = kind.rank
  held : tensor.Held

namespace Weight

variable (w : Weight)

def size : Nat := w.tensor.sizes.prod

def dim (i : Nat) : Nat := w.tensor.sizes.getD i 0

def rows : Nat :=
  match w.kind with
  | .matMul false => w.dim 1
  | _ => w.dim 0

def cols : Nat :=
  match w.kind with
  | .matMul transposed => if transposed then w.dim 1 else w.dim 0
  | .conv => (w.tensor.sizes.drop 1).prod

def place (k : Nat) : Nat :=
  match w.kind with
  | .matMul transposed => relayout transposed (w.dim 0) (w.dim 1) k
  | .conv => k

def data : List Nat :=
  match w.kind with
  | .matMul transposed => readWeightNKF64 transposed (w.dim 0) (w.dim 1) (readTensorAsF64Flat w.tensor)
  | .conv => readTensorAsF64Flat w.tensor

def toOriginal (data : List Nat) : List Nat :=
  match w.kind with
  | .matMul transposed => weightNkToOriginalF64 transposed (w.dim 0) (w.dim 1) data
  | .conv => data

def NoNaN : Prop := ∀ bits ∈ w.tensor.patterns, w.tensor.elemType.IsNumber bits

end Weight

variable {s e m f bits : Nat}

theorem shiftRound_mul : shiftRound (m * 2 ^ s) s = m := by
  have hpos : 0 < 2 ^ (s - 1) := by positivity
  rw [shiftRound, Nat.mul_mod_left, Nat.mul_div_cancel _ (by positivity), if_neg (by omega), Nat.add_zero]

theorem toDouble_single (he : e < 2 ^ 8) (hm : m < 2 ^ 23) : toDouble (single s e m) =
    if e = 255 then double s 2047 (m * 2 ^ 29)
    else if e ≠ 0 then double s (e + 896) (m * 2 ^ 29)
    else if m = 0 then double s 0 0
    else double s (m.log2 + 874) ((m - 2 ^ m.log2) * 2 ^ (52 - m.log2)) := by
  have hsign : single s e m / 2 ^ 31 = s := by rw [single]; omega
  have hexp : single s e m / 2 ^ 23 % 2 ^ 8 = e := by rw [single]; omega
  have hmant : single s e m % 2 ^ 23 = m := by rw [single]; omega
  simp only [toDouble, hsign, hexp, hmant]

theorem double_fields (he : e < 2 ^ 11) (hm : m < 2 ^ 52) : double s e m / 2 ^ 63 = s ∧
    double s e m / 2 ^ 52 % 2 ^ 11 = e ∧ double s e m % 2 ^ 52 = m := by
  rw [double]
  omega

theorem leading {w : Nat} (hm : m ≠ 0) (hk : m.log2 ≤ w) : (m - 2 ^ m.log2) * 2 ^ (w - m.log2) < 2 ^ w ∧
    2 ^ w + (m - 2 ^ m.log2) * 2 ^ (w - m.log2) = m * 2 ^ (w - m.log2) := by
  obtain ⟨hlo, hhi⟩ := (Nat.log2_eq_iff hm).mp rfl
  have hpow : 2 ^ w = 2 ^ m.log2 * 2 ^ (w - m.log2) := by rw [← pow_add, Nat.add_sub_cancel' hk]
  rw [hpow, ← Nat.add_mul, Nat.add_sub_cancel' hlo]
  refine ⟨?_, rfl⟩
  apply Nat.mul_lt_mul_of_pos_right _ (by positivity)
  rw [pow_succ] at hhi
  omega

theorem toFloat_toDouble (hf : f < 2 ^ 32) : toFloat (toDouble f) = f := by
  obtain ⟨s, e, m, he, hm, rfl⟩ : ∃ s e m, e < 2 ^ 8 ∧ m < 2 ^ 23 ∧ f = single s e m :=
    ⟨f / 2 ^ 31, f / 2 ^ 23 % 2 ^ 8, f % 2 ^ 23, by omega, by omega, by rw [single]; omega⟩
  rw [toDouble_single he hm]
  by_cases h255 : e = 255
  · obtain ⟨h1, h2, h3⟩ := double_fields (s := s) (e := 2047) (m := m * 2 ^ 29) (by decide) (by omega)
    rw [if_pos h255, toFloat, h1, h2, h3, if_pos rfl, h255]
    congr 1
    split <;> omega
  · by_cases h0 : e = 0
    · rw [if_neg h255, if_neg (not_not.mpr h0)]
      by_cases hm0 : m = 0
      · obtain ⟨h1, h2, -⟩ := double_fields (s := s) (e := 0) (m := 0) (by decide) (by decide)
        rw [if_pos hm0, toFloat, h1, h2, if_neg (by decide), if_pos rfl, h0, hm0]
      · have hlog : m.log2 < 23 := (Nat.log2_lt hm0).mpr hm
        obtain ⟨hlt, heq⟩ := leading hm0 (by omega : m.log2 ≤ 52)
        obtain ⟨h1, h2, h3⟩ := double_fields (s := s) (e := m.log2 + 874) (by omega) hlt
        have hshift : 926 - (m.log2 + 874) = 52 - m.log2 := by omega
        rw [if_neg hm0, toFloat, h1, h2, h3, if_neg (by omega), if_neg (by omega), if_pos (by omega), heq, hshift,
          shiftRound_mul, h0]
    · obtain ⟨h1, h2, h3⟩ := double_fields (s := s) (e := e + 896) (m := m * 2 ^ 29) (by omega) (by omega)
      have hmul : 2 ^ 52 + m * 2 ^ 29 = (2 ^ 23 + m) * 2 ^ 29 := by omega
      rw [if_neg h255, if_pos h0, toFloat, h1, h2, h3, if_neg (by omega), if_neg (by omega), if_neg (by omega), hmul,
        shiftRound_mul, single, single]
      omega

theorem doubleToBFloat16Bits_widen (hb : bits < 2 ^ 16) (hnum : bits % 2 ^ 15 ≤ 0x7F80) :
    doubleToBFloat16Bits (bfloat16BitsToDouble bits) = bits := by
  have hfloat : toFloat (bfloat16BitsToDouble bits) = bits * 2 ^ 16 := toFloat_toDouble (by omega)
  have hodd : bits * 2 ^ 16 / 2 ^ 16 % 2 < 2 := Nat.mod_lt _ (by decide)
  rw [doubleToBFloat16Bits, hfloat, if_neg (by omega)]
  generalize bits * 2 ^ 16 / 2 ^ 16 % 2 = odd at hodd ⊢
  omega

theorem normalize_eq : ∀ (j turns m e : Nat), 2 ^ 10 ≤ m * 2 ^ j → m * 2 ^ j < 2 ^ 11 → j ≤ turns →
    normalize turns m e = (m * 2 ^ j, e + j) := by
  intro j
  induction j with
  | zero =>
    intro turns m e hlo hhi _
    rw [pow_zero, Nat.mul_one] at hlo hhi
    cases turns with
    | zero => simp [normalize]
    | succ turns => rw [normalize, if_neg (by omega), pow_zero, Nat.mul_one, Nat.add_zero]
  | succ j ih =>
    intro turns m e hlo hhi hle
    obtain ⟨turns, rfl⟩ := Nat.exists_eq_add_of_le' hle
    have hdouble : m * 2 ^ (j + 1) = m * 2 * 2 ^ j := by rw [pow_succ, Nat.mul_comm (2 ^ j), Nat.mul_assoc]
    have hsmall : m * 2 < 2 ^ 11 := (Nat.le_mul_of_pos_right _ Nat.one_le_two_pow).trans_lt (hdouble ▸ hhi)
    rw [← Nat.add_assoc, normalize, if_pos (by omega), ih _ _ _ (hdouble ▸ hlo) (hdouble ▸ hhi) (by omega), hdouble]
    congr 1
    omega

theorem half_normal (hlo : 1008 < e) (hhi : e < 1039) (hm : m < 2 ^ 10) :
    doubleToFloat16Bits (double s e (m * 2 ^ 42)) = s * 2 ^ 15 + ((e - 1008) * 2 ^ 10 + m) := by
  obtain ⟨h1, h2, h3⟩ := double_fields (s := s) (by omega : e < 2 ^ 11) (by omega : m * 2 ^ 42 < 2 ^ 52)
  have hexp : ((e : Int) - 1023 + 15).toNat = e - 1008 := by omega
  rw [doubleToFloat16Bits, h1, h2, h3]
  rw [if_neg (by omega), if_neg (by omega), if_neg (by omega), shiftRound_mul, if_neg (by omega), hexp, Nat.add_assoc]

theorem half_subnormal (hlo : 998 ≤ e) (hhi : e ≤ 1008) (hm : m < 2 ^ 52) (hn : 2 ^ 52 + m = n * 2 ^ (1051 - e)) :
    doubleToFloat16Bits (double s e m) = s * 2 ^ 15 + n := by
  obtain ⟨h1, h2, h3⟩ := double_fields (s := s) (by omega : e < 2 ^ 11) hm
  have hshift : (43 - ((e : Int) - 1023 + 15)).toNat = 1051 - e := by omega
  rw [doubleToFloat16Bits, h1, h2, h3]
  rw [if_neg (by omega), if_neg (by omega), if_pos (by omega), if_neg (by omega), hshift, Nat.add_comm m, hn,
    shiftRound_mul]

theorem half_extreme : doubleToFloat16Bits (double s 0 0) = s * 2 ^ 15 ∧
    doubleToFloat16Bits (double s 2047 0) = s * 2 ^ 15 + 0x7C00 := by
  obtain ⟨h1, h2, h3⟩ := double_fields (s := s) (e := 0) (m := 0) (by decide) (by decide)
  obtain ⟨h1', h2', h3'⟩ := double_fields (s := s) (e := 2047) (m := 0) (by decide) (by decide)
  constructor
  · rw [doubleToFloat16Bits, h1, h2, h3, if_neg (by decide), if_neg (by decide), if_pos (by decide), if_pos (by decide)]
  · rw [doubleToFloat16Bits, h1', h2', h3', if_pos (Eq.refl _), if_pos (Eq.refl _), Nat.add_zero]

theorem doubleToFloat16Bits_widen (hb : bits < 2 ^ 16) (hnum : bits % 2 ^ 15 ≤ 0x7C00) :
    doubleToFloat16Bits (float16BitsToDouble bits) = bits := by
  obtain ⟨s, e, m, he, hm, hinf, rfl⟩ : ∃ s e m, e < 32 ∧ m < 2 ^ 10 ∧ (e = 31 → m = 0) ∧
      bits = s * 2 ^ 15 + (e * 2 ^ 10 + m) :=
    ⟨bits / 2 ^ 15, bits / 2 ^ 10 % 2 ^ 5, bits % 2 ^ 10, by omega, by omega, by omega, by omega⟩
  have hsign : (s * 2 ^ 15 + (e * 2 ^ 10 + m)) / 2 ^ 15 = s := by omega
  have hexp : (s * 2 ^ 15 + (e * 2 ^ 10 + m)) / 2 ^ 10 % 2 ^ 5 = e := by omega
  have hmant : (s * 2 ^ 15 + (e * 2 ^ 10 + m)) % 2 ^ 10 = m := by omega
  rw [float16BitsToDouble, hsign, hexp, hmant]
  clear hb hnum hsign hexp hmant
  by_cases h31 : e = 31
  · have hm0 := hinf h31
    subst h31 hm0
    rw [if_neg (by decide), if_pos rfl, toDouble_single (by decide) (by decide), if_pos rfl, Nat.zero_mul, Nat.zero_mul,
      half_extreme.2]
    omega
  · by_cases h0 : e = 0
    · subst h0
      rw [if_pos rfl, Nat.zero_mul, Nat.zero_add]
      by_cases hm0 : m = 0
      · subst hm0
        rw [if_pos rfl, toDouble_single (by decide) (by decide), if_neg (by decide), if_neg (by decide), if_pos rfl,
          half_extreme.1, Nat.add_zero]
      · have hlog : m.log2 < 10 := (Nat.log2_lt hm0).mpr hm
        obtain ⟨hlt, heq⟩ := leading hm0 hlog.le
        obtain ⟨hlt', heq'⟩ := leading hm0 (by omega : m.log2 ≤ 52)
        have hturns : m * 2 * 2 ^ (9 - m.log2) = m * 2 ^ (10 - m.log2) := by
          rw [Nat.mul_assoc, ← pow_succ', show 9 - m.log2 + 1 = 10 - m.log2 by omega]
        have hmod : m * 2 ^ (10 - m.log2) % 2 ^ 10 = (m - 2 ^ m.log2) * 2 ^ (10 - m.log2) := by
          rw [← heq, Nat.add_mod_left, Nat.mod_eq_of_lt hlt]
        have hmant : (m - 2 ^ m.log2) * 2 ^ (10 - m.log2) * 2 ^ 13 * 2 ^ 29 = (m - 2 ^ m.log2) * 2 ^ (52 - m.log2) := by
          rw [Nat.mul_assoc, Nat.mul_assoc, ← pow_add, ← pow_add]
          congr 2
          omega
        have hshift : 1051 - (127 - 15 - (0 + (9 - m.log2)) + 896) = 52 - m.log2 := by omega
        rw [if_neg hm0, normalize_eq (9 - m.log2) 10 (m * 2) 0 (by omega) (by omega) (by omega), hturns]
        dsimp only
        rw [hmod, toDouble_single (by omega) (by omega), if_neg (by omega), if_pos (by omega), hmant,
          half_subnormal (by omega) (by omega) hlt' (by rw [heq', hshift])]
    · have hmul : m * 2 ^ 13 * 2 ^ 29 = m * 2 ^ 42 := by rw [Nat.mul_assoc, ← pow_add]
      have hbias : e + 127 - 15 + 896 - 1008 = e := by omega
      rw [if_neg h0, if_neg h31, toDouble_single (e := e + 127 - 15) (m := m * 2 ^ 13) (by omega) (by omega),
        if_neg (by omega), if_pos (by omega), hmul, half_normal (by omega) (by omega) hm, hbias]

theorem double_mod (he : e < 2 ^ 11) (hm : m < 2 ^ 52) : double s e m % 2 ^ 63 = e * 2 ^ 52 + m := by
  rw [double]
  omega

theorem number_single (he : e < 2 ^ 8) (hm : m < 2 ^ 23) (hnum : e = 255 → m = 0) :
    toDouble (single s e m) % 2 ^ 63 ≤ infinity := by
  rw [toDouble_single he hm, infinity]
  split
  · next h =>
    rw [hnum h, double_mod (by decide) (by decide)]
    omega
  · split
    · rw [double_mod (by omega) (by omega)]
      omega
    · split
      · rw [double_mod (by decide) (by decide)]
        omega
      · next h0 =>
        have hlog : m.log2 < 23 := (Nat.log2_lt h0).mpr hm
        obtain ⟨hlt, -⟩ := leading h0 (by omega : m.log2 ≤ 52)
        rw [double_mod (by omega) hlt]
        omega

variable {t : ElemType}

theorem narrow_widen (hb : bits < 256 ^ t.size) (hnum : t.IsNumber bits) : t.narrow (t.widen bits) = bits := by
  cases t with
  | float => exact toFloat_toDouble hb
  | float16 => exact doubleToFloat16Bits_widen hb hnum
  | bfloat16 => exact doubleToBFloat16Bits_widen hb hnum

theorem narrow_zero : t.narrow 0 = 0 := by
  cases t <;> decide

theorem widen_zero : t.widen 0 = 0 := by
  cases t <;> decide

theorem widen_number (hb : bits < 256 ^ t.size) (hnum : t.IsNumber bits) : t.widen bits % 2 ^ 63 ≤ infinity := by
  cases t with
  | float =>
    have hnum : bits % 2 ^ 31 ≤ 0x7F800000 := hnum
    have hbits : bits = single (bits / 2 ^ 31) (bits / 2 ^ 23 % 2 ^ 8) (bits % 2 ^ 23) := by
      rw [single]
      omega
    rw [ElemType.widen, hbits]
    exact number_single (by omega) (by omega) (by omega)
  | float16 =>
    have hnum : bits % 2 ^ 15 ≤ 0x7C00 := hnum
    rw [ElemType.widen, float16BitsToDouble]
    split
    · split
      · exact number_single (by decide) (by decide) fun _ => rfl
      · exact number_single (by omega) (by omega) (by omega)
    · split
      · exact number_single (by decide) (by omega) (by omega)
      · exact number_single (by omega) (by omega) (by omega)
  | bfloat16 =>
    have hnum : bits % 2 ^ 15 ≤ 0x7F80 := hnum
    have hbits : bits * 2 ^ 16 = single (bits / 2 ^ 15) (bits / 2 ^ 7 % 2 ^ 8) (bits % 2 ^ 7 * 2 ^ 16) := by
      rw [single]
      omega
    rw [ElemType.widen, bfloat16BitsToDouble, hbits]
    exact number_single (by omega) (by omega) (by omega)

end

theorem readRawDataHostOrder_write (size : Nat) {values : List Nat} (h : ∀ v ∈ values, v < 256 ^ size) :
    readRawDataHostOrder size values.length (writeRawDataLittleEndian size values) = values := by
  induction values with
  | nil => rfl
  | cons v values ih =>
    have hlen := leBytes_length size v
    have hrest : (fun i => ofLE ((((leBytes size v) ++ writeRawDataLittleEndian size values).drop (size * i)).take size)) ∘
        Nat.succ = fun i => ofLE (((writeRawDataLittleEndian size values).drop (size * i)).take size) := by
      funext i
      rw [Function.comp_apply, Nat.mul_succ, Nat.add_comm, ← drop_drop, drop_left' hlen]
    have hw : writeRawDataLittleEndian size (v :: values) = leBytes size v ++ writeRawDataLittleEndian size values := rfl
    rw [readRawDataHostOrder, length_cons, range_succ_eq_map, map_cons, map_map, hw, hrest, Nat.mul_zero, drop_zero,
      take_left' hlen, ofLE_leBytes_of_lt (h v mem_cons_self)]
    exact congrArg _ (ih fun v hv => h v (mem_cons_of_mem _ hv))

theorem patterns_lt {t : Tensor} {bits : Nat} (h : bits ∈ t.patterns) : bits < 256 ^ t.elemType.size := by
  obtain ⟨e, sizes, floats, int32s, raw⟩ := t
  cases raw with
  | some raw =>
    obtain ⟨i, -, rfl⟩ := mem_map.mp h
    exact (ofLE_lt _).trans_le (Nat.pow_le_pow_right (by decide) (length_take_le _ _))
  | none =>
    cases e with
    | float =>
      obtain ⟨f, -, rfl⟩ := mem_map.mp h
      exact f.isLt
    | float16 | bfloat16 =>
      obtain ⟨code, -, rfl⟩ := mem_map.mp h
      change (code % 2 ^ 16).toNat < 65536
      omega

theorem length_patterns {t : Tensor} (h : t.Held) : t.patterns.length = t.sizes.prod := by
  obtain ⟨e, sizes, floats, int32s, raw⟩ := t
  cases raw with
  | some raw => exact (length_map _).trans length_range
  | none => cases e <;> exact (length_map _).trans h

variable {e : ElemType} {sizes data : List Nat}

theorem patterns_write (hlen : data.length = sizes.prod) (h : ∀ d ∈ data, e.narrow d < 256 ^ e.size) :
    (writeF64FlatAsTensor e sizes data).patterns = data.map e.narrow := by
  cases e with
  | float =>
    rw [writeF64FlatAsTensor, Tensor.patterns, map_map]
    exact map_congr_left fun d hd => Nat.mod_eq_of_lt (h d hd)
  | float16 | bfloat16 =>
    refine .trans ?_ (readRawDataHostOrder_write 2 fun v hv => ?_)
    · rw [length_map, hlen]
      rfl
    · obtain ⟨d, hd, rfl⟩ := mem_map.mp hv
      exact h d hd

theorem type_write : (writeF64FlatAsTensor e sizes data).elemType = e ∧ (writeF64FlatAsTensor e sizes data).sizes = sizes := by
  cases e <;> exact ⟨rfl, rfl⟩

theorem held_write (hlen : data.length = sizes.prod) : (writeF64FlatAsTensor e sizes data).Held := by
  have hraw (values : List Nat) : (writeRawDataLittleEndian 2 values).length = 2 * values.length := by
    induction values with
    | nil => rfl
    | cons v values ih =>
      rw [length_cons, Nat.mul_succ, Nat.add_comm, ← ih, ← leBytes_length 2 v]
      exact length_append
  cases e with
  | float => exact (length_map _).trans hlen
  | float16 | bfloat16 => exact (hraw _).trans (congrArg (2 * ·) ((length_map _).trans hlen))

theorem relayout_lt {k : Nat} (h : k < a * b) : relayout transposed a b k < a * b := by
  rw [relayout]
  split
  · exact h
  · have hb : 0 < b := Nat.pos_of_ne_zero fun hb => by simp [hb] at h
    have hdiv : k / b < a := Nat.div_lt_of_lt_mul (Nat.mul_comm a b ▸ h)
    calc k % b * a + k / b < k % b * a + a := by omega
      _ = (k % b + 1) * a := (Nat.succ_mul _ _).symm
      _ ≤ b * a := Nat.mul_le_mul_right _ (Nat.mod_lt k hb)
      _ = a * b := Nat.mul_comm _ _

theorem relayout_relayout {k : Nat} (h : k < a * b) : relayout transposed b a (relayout transposed a b k) = k := by
  cases transposed with
  | true => rfl
  | false =>
    have hdiv : k / b < a := Nat.div_lt_of_lt_mul (Nat.mul_comm a b ▸ h)
    have hmod : (k % b * a + k / b) % a = k / b := by rw [Nat.mul_add_mod_self_right, Nat.mod_eq_of_lt hdiv]
    have hquot : (k % b * a + k / b) / a = k % b := by
      rw [Nat.add_comm, Nat.add_mul_div_right _ _ (Nat.zero_lt_of_lt hdiv), Nat.div_eq_of_lt hdiv, Nat.zero_add]
    change (k % b * a + k / b) % a * b + (k % b * a + k / b) / a = k
    rw [hmod, hquot, Nat.mul_comm, Nat.div_add_mod]

theorem getD_map_range {f : Nat → Nat} {k : Nat} (h : k < n) : ((range n).map f).getD k 0 = f k := by
  simp [h]

namespace Weight

variable (w : Weight) {k : Nat}

theorem dims_eq : w.rows * w.cols = w.size ∧ ∀ transposed, w.kind = .matMul transposed → w.dim 0 * w.dim 1 = w.size := by
  obtain ⟨kind, ⟨e, sizes, floats, int32s, raw⟩, ranked, held⟩ := w
  cases kind with
  | matMul transposed =>
    obtain ⟨a, b, rfl⟩ := length_eq_two.mp ranked
    have hsize : a * b = [a, b].prod := by simp
    refine ⟨?_, fun _ _ => hsize⟩
    cases transposed with
    | true => exact hsize
    | false => exact (Nat.mul_comm b a).trans hsize
  | conv =>
    obtain ⟨a, rest, rfl⟩ := exists_cons_of_length_eq_add_one ranked
    exact ⟨prod_cons.symm, nofun⟩

theorem length_data : w.data.length = w.size := by
  rw [data]
  split
  · next h => rw [readWeightNKF64, length_map, length_range, w.dims_eq.2 _ h]
  · rw [readTensorAsF64Flat, length_map, length_patterns w.held, size]

theorem length_toOriginal {d : List Nat} (hd : d.length = w.size) : (w.toOriginal d).length = w.size := by
  rw [toOriginal]
  split
  · next h => rw [weightNkToOriginalF64, length_map, length_range, w.dims_eq.2 _ h]
  · exact hd

theorem exists_place (hk : k < w.size) : w.place k < w.size ∧ ∃ j < w.size, w.place j = k := by
  rw [place]
  split
  · next transposed h =>
    rw [← w.dims_eq.2 _ h] at hk ⊢
    have hswap : k < w.dim 1 * w.dim 0 := Nat.mul_comm _ _ ▸ hk
    refine ⟨relayout_lt hk, relayout transposed (w.dim 1) (w.dim 0) k, ?_, ?_⟩
    · exact (relayout_lt hswap).trans_eq (Nat.mul_comm _ _)
    · rw [place, h]
      exact relayout_relayout hswap
  · next h => exact ⟨hk, k, hk, by rw [place, h]⟩

theorem data_place (hk : k < w.size) : w.data.getD (w.place k) 0 = w.tensor.elemType.widen (w.tensor.patterns.getD k 0) := by
  have hflat : (readTensorAsF64Flat w.tensor).getD k 0 = w.tensor.elemType.widen (w.tensor.patterns.getD k 0) := by
    have h := getD_map w.tensor.patterns 0 w.tensor.elemType.widen (n := k)
    rwa [widen_zero] at h
  rw [data, place]
  split
  · next h =>
    rw [← w.dims_eq.2 _ h] at hk
    rw [readWeightNKF64, getD_map_range (relayout_lt hk), relayout_relayout hk, hflat]
  · exact hflat

theorem toOriginal_place {d : List Nat} (hk : k < w.size) : (w.toOriginal d).getD k 0 = d.getD (w.place k) 0 := by
  rw [toOriginal, place]
  split
  · next h =>
    rw [← w.dims_eq.2 _ h] at hk
    exact getD_map_range hk
  · rfl

end Weight

end Onnxsim.Pruning.Weights
