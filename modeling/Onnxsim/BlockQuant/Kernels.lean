import Onnxsim.BlockQuant.HalfTrips

namespace Onnxsim.BlockQuant.Kernels

open Doubles Halves

/-- What a kernel does for one element: the quotient it takes and its code, scale, offset and result. -/
structure Element where
  numerator : Double
  denominator : Double
  code : Double
  scale : Double
  offset : Double
  written : Double

/-- What it does for one sub-block: the quotients for the scales, and the elements. -/
structure Part where
  quotients : List (Double × Double)
  elements : List Element

abbrev Block := List Weight

def maxAbs (data : Block) : Double := data.foldl (fun m w => m.max (Double.fabs (.fin w.value))) (.fin 0)

/-- `data[0]` and then the others; a block is not empty. -/
def lowest : Block → Double
  | [] => .fin 0
  | w :: ws => ws.foldl (fun lo w => lo.min (.fin w.value)) (.fin w.value)

def highest : Block → Double
  | [] => .fin 0
  | w :: ws => ws.foldl (fun hi w => hi.max (.fin w.value)) (.fin w.value)

/-- `std::min(std::max(code, lo), hi)` -/
def clamp (code : Double) (lo hi : Int) : Double := (code.max (.fin lo)).min (.fin hi)

/-- The `j`-th sub-block is what begins at `j * size`. -/
def subBlocks (size : Nat) (data : Block) : List Block :=
  (List.range ((data.length + size - 1) / size)).map fun j => (data.drop (j * size)).take size

/-- `QuantizeDequantizeQ4_0Block` and `QuantizeDequantizeQ5_0Block`. -/
def symmetricBlock (bias maxCode : Int) (data : Block) : List Part :=
  let d := roundTripFloat16 (((maxAbs data).max tiny).div (.fin bias))
  [⟨[], data.map fun w =>
    let code := clamp (((Double.fin w.value).div d).round.add (.fin bias)) 0 maxCode
    ⟨.fin w.value, d, code, d, .fin 0, (code.sub (.fin bias)).mul d⟩⟩]

/-- `QuantizeDequantizeQ4_1Block` and `QuantizeDequantizeQ5_1Block`. -/
def affineBlock (maxCode : Int) (data : Block) : List Part :=
  let m := roundTripFloat16 (lowest data)
  let d := roundTripFloat16 ((((highest data).sub (lowest data)).max tiny).div (.fin maxCode))
  [⟨[], data.map fun w =>
    let shifted := (Double.fin w.value).sub m
    let code := clamp (shifted.div d).round 0 maxCode
    ⟨shifted, d, code, d, m, (code.mul d).add m⟩⟩]

def quantizeDequantizeQ4_0Block : Block → List Part := symmetricBlock 8 15

def quantizeDequantizeQ5_0Block : Block → List Part := symmetricBlock 16 31

def quantizeDequantizeQ4_1Block : Block → List Part := affineBlock 15

def quantizeDequantizeQ5_1Block : Block → List Part := affineBlock 31

def quantizeDequantizeTernaryBlock (data : Block) : List Part :=
  let sumAbs := data.foldl (fun sum w => Double.add sum (Double.fabs (.fin w.value))) (.fin 0)
  let d := roundTripFloat16 ((sumAbs.div (.fin data.length)).max tiny)
  [⟨[], data.map fun w =>
    let code := clamp ((Double.fin w.value).div d).round (-1) 1
    ⟨.fin w.value, d, code, d, .fin 0, code.mul d⟩⟩]

/-- What tells the formats with sub-blocks apart. -/
structure KFormat where
  subBlockSize : Nat
  maxCode : Int
  maxSubScaleCode : Int

def q2K : KFormat := ⟨16, 3, 15⟩

def q4K : KFormat := ⟨32, 15, 63⟩

def q5K : KFormat := ⟨32, 31, 63⟩

variable (f : KFormat)

def idealScale (sub : Block) : Double := (((highest sub).sub (lowest sub)).max tiny).div (.fin f.maxCode)

def idealNegOffset (sub : Block) : Double := (lowest sub).neg.max (.fin 0)

def greatest (xs : List Double) : Double := xs.foldl Double.max (.fin 0)

def superScale (ideals : List Double) (maxSubScaleCode : Int) : Double :=
  roundTripFloat16 (((greatest ideals).max tiny).div (.fin maxSubScaleCode))

def safeSubScale (subScale : Double) : Double := if (Double.fin 0).lt subScale then subScale else .fin 1

/-- `QuantizeDequantizeQ2KSuperBlock`, `QuantizeDequantizeQ4KSuperBlock`, `QuantizeDequantizeQ5KSuperBlock`. -/
def affineSuperBlock (data : Block) : List Part :=
  let subs := subBlocks f.subBlockSize data
  let d := superScale (subs.map (idealScale f)) f.maxSubScaleCode
  let dmin := superScale (subs.map idealNegOffset) f.maxSubScaleCode
  subs.map fun sub =>
    let sc := clamp ((idealScale f sub).div d).round 0 f.maxSubScaleCode
    let m := clamp ((idealNegOffset sub).div dmin).round 0 f.maxSubScaleCode
    let subScale := d.mul sc
    let subMin := (dmin.mul m).neg
    ⟨[(idealScale f sub, d), (idealNegOffset sub, dmin)], sub.map fun w =>
      let shifted := (Double.fin w.value).sub subMin
      let code := clamp (shifted.div (safeSubScale subScale)).round 0 f.maxCode
      ⟨shifted, safeSubScale subScale, code, subScale, subMin, (code.mul subScale).add subMin⟩⟩

def quantizeDequantizeQ2KSuperBlock : Block → List Part := affineSuperBlock q2K

def quantizeDequantizeQ4KSuperBlock : Block → List Part := affineSuperBlock q4K

def quantizeDequantizeQ5KSuperBlock : Block → List Part := affineSuperBlock q5K

def idealScale3 (sub : Block) : Double := ((maxAbs sub).max tiny).div (.fin 4)

def quantizeDequantizeQ3KSuperBlock (data : Block) : List Part :=
  let subs := subBlocks 16 data
  let dAll := superScale (subs.map idealScale3) 31
  subs.map fun sub =>
    let scaleOffset := clamp ((idealScale3 sub).div dAll).round 0 31
    let subScale := dAll.mul scaleOffset
    ⟨[(idealScale3 sub, dAll)], sub.map fun w =>
      let code := clamp ((Double.fin w.value).div (safeSubScale subScale)).round (-4) 3
      ⟨.fin w.value, safeSubScale subScale, code, subScale, .fin 0, code.mul subScale⟩⟩

inductive Kernel where
  | q2K | q3K | q4K | q5K | q4_0 | q4_1 | q5_0 | q5_1 | ternary
deriving DecidableEq, Repr

def Kernel.run : Kernel → Block → List Part
  | .q2K => quantizeDequantizeQ2KSuperBlock
  | .q3K => quantizeDequantizeQ3KSuperBlock
  | .q4K => quantizeDequantizeQ4KSuperBlock
  | .q5K => quantizeDequantizeQ5KSuperBlock
  | .q4_0 => quantizeDequantizeQ4_0Block
  | .q4_1 => quantizeDequantizeQ4_1Block
  | .q5_0 => quantizeDequantizeQ5_0Block
  | .q5_1 => quantizeDequantizeQ5_1Block
  | .ternary => quantizeDequantizeTernaryBlock

/-- The least and greatest code of the format, and the code that stands for zero times the scale. -/
def Kernel.codes : Kernel → Int × Int × Int
  | .q2K => (0, 3, 0)
  | .q3K => (-4, 3, 0)
  | .q4K => (0, 15, 0)
  | .q5K => (0, 31, 0)
  | .q4_0 => (0, 15, 8)
  | .q4_1 => (0, 15, 0)
  | .q5_0 => (0, 31, 16)
  | .q5_1 => (0, 31, 0)
  | .ternary => (-1, 1, 0)

end Onnxsim.BlockQuant.Kernels

namespace Onnxsim.BlockQuant.Codes

open Lib Lib.Binary Doubles Halves
open Kernels

variable {y : Double}

def NonNeg (y : Double) : Prop := y = .inf false ∨ ∃ q : ℚ, 0 ≤ q ∧ y = .fin q

def Pos (y : Double) : Prop := y = .inf false ∨ ∃ q : ℚ, 0 < q ∧ y = .fin q

theorem Pos.toNonNeg (h : Pos y) : NonNeg y := by
  rcases h with h | ⟨q, hq, h⟩
  · exact .inl h
  · exact .inr ⟨q, hq.le, h⟩

variable {q b : ℚ} {x : Double}

theorem nonNeg_fin (hq : 0 ≤ q) : NonNeg (.fin q) := .inr ⟨q, hq, rfl⟩

theorem nonNeg_ofExact (hq : 0 ≤ q) : NonNeg (ofExact q) := by
  rcases ofExact_cases q with h | h
  · exact .inr ⟨_, round_nonneg hq, h⟩
  · left
    rw [h]
    simp [hq]

theorem pos_ofExact (hq : 1 / 2 ^ 100 ≤ q) : Pos (ofExact q) := by
  have hpos : 0 < q := lt_of_lt_of_le (by positivity) hq
  rcases ofExact_cases q with h | h
  · have hne : Binary.round binary64 q ≠ 0 := by
      apply round_ne_zero one_le_precision64
      rw [abs_of_pos hpos]
      refine le_trans ?_ hq
      rw [one_div, ← zpow_natCast, ← zpow_neg]
      exact zpow_le_zpow_right₀ one_le_two (by decide)
    exact .inr ⟨_, lt_of_le_of_ne (round_nonneg hpos.le) hne.symm, h⟩
  · left
    rw [h]
    simp [hpos.le]

theorem max_fin (a b : ℚ) : (Double.fin a).max (.fin b) = .fin (max a b) := by
  by_cases h : a < b
  · simp [Double.max, Double.lt, h, max_eq_right h.le]
  · simp [Double.max, Double.lt, h, max_eq_left (not_lt.mp h)]

theorem min_fin (a b : ℚ) : (Double.fin a).min (.fin b) = .fin (min a b) := by
  by_cases h : b < a
  · simp [Double.min, Double.lt, h, min_eq_right h.le]
  · simp [Double.min, Double.lt, h, min_eq_left (not_lt.mp h)]

theorem nonNeg_max (hx : NonNeg x) (hy : NonNeg y) : NonNeg (x.max y) := by
  rw [Double.max]
  split
  · exact hy
  · exact hx

theorem nonNeg_add (hx : NonNeg x) (hy : NonNeg y) : NonNeg (x.add y) := by
  rcases hx with rfl | ⟨a, ha, rfl⟩
  · rcases hy with rfl | ⟨b, -, rfl⟩
    · exact .inl rfl
    · exact .inl rfl
  · rcases hy with rfl | ⟨b, hb, rfl⟩
    · exact .inl rfl
    · exact nonNeg_ofExact (add_nonneg ha hb)

theorem nonNeg_div (hx : NonNeg x) (hb : 0 < b) : NonNeg (x.div (.fin b)) := by
  rcases hx with rfl | ⟨a, ha, rfl⟩
  · left
    simp [Double.div, hb.le]
  · rw [Double.div, if_neg hb.ne']
    exact nonNeg_ofExact (div_nonneg ha hb.le)

theorem tiny_eq : ∃ t : ℚ, 1 / 2 ^ 50 ≤ t ∧ t ≤ 1 / 2 ^ 30 ∧ tiny = .fin t := by
  have herr := round_error_le (f := binary64) (q := (1 / 10 ^ 12 : ℚ)) (by norm_num)
  have hmin : (2 : ℚ) ^ binary64.emin / 2 ≤ 1 / 2 ^ 60 := by
    have : (2 : ℚ) ^ binary64.emin ≤ 2 ^ (-60 : Int) := zpow_le_zpow_right₀ one_le_two (by decide)
    norm_num at this ⊢
    linarith
  have hrel : |(1 / 10 ^ 12 : ℚ)| / 2 ^ binary64.precision ≤ 1 / 2 ^ 60 := by norm_num [binary64]
  have habs := abs_le.mp (herr.trans (add_le_add hrel hmin))
  have hlow : (1 : ℚ) / 2 ^ 50 ≤ Binary.round binary64 (1 / 10 ^ 12) := by
    have : (1 : ℚ) / 2 ^ 50 + (1 / 2 ^ 60 + 1 / 2 ^ 60) ≤ 1 / 10 ^ 12 := by norm_num
    linarith [habs.1]
  have hhigh : Binary.round binary64 (1 / 10 ^ 12 : ℚ) ≤ 1 / 2 ^ 30 := by
    have : (1 : ℚ) / 10 ^ 12 + (1 / 2 ^ 60 + 1 / 2 ^ 60) ≤ 1 / 2 ^ 30 := by norm_num
    linarith [habs.2]
  refine ⟨_, hlow, hhigh, ?_⟩
  have hnonneg : 0 ≤ Binary.round binary64 (1 / 10 ^ 12 : ℚ) := le_trans (by positivity) hlow
  rw [tiny, ofExact, if_pos]
  rw [abs_of_nonneg hnonneg]
  refine lt_of_le_of_lt hhigh ?_
  refine lt_of_lt_of_le (show (1 : ℚ) / 2 ^ 30 < 1 by norm_num) (one_le_pow₀ one_le_two)

theorem pos_guarded (hx : NonNeg x) (hb : 0 < b) (hb' : b ≤ 2 ^ 10) : Pos ((x.max tiny).div (.fin b)) := by
  obtain ⟨t, ht, -, htiny⟩ := tiny_eq
  rcases hx with rfl | ⟨a, -, rfl⟩
  · left
    rw [htiny]
    simp [Double.max, Double.lt, Double.div, hb.le]
  · rw [htiny, max_fin, Double.div, if_neg hb.ne']
    apply pos_ofExact
    rw [le_div_iff₀ hb]
    calc (1 : ℚ) / 2 ^ 100 * b ≤ 1 / 2 ^ 100 * 2 ^ 10 := by gcongr
      _ ≤ 1 / 2 ^ 50 := by norm_num
      _ ≤ max a t := ht.trans (le_max_right _ _)

/-- A scale field: a number of 41 bits over `2 ^ 24`. -/
def ScaleField (y : Double) : Prop := ∃ k : Int, 0 ≤ k ∧ k < 2 ^ 40 ∧ y = .fin (k / 2 ^ 24)

theorem scaleField_roundTrip (hy : NonNeg y) : ScaleField (roundTripFloat16 y) := by
  rcases hy with rfl | ⟨q, hq, rfl⟩
  · obtain ⟨k, hk, hlt, hk0, -⟩ := halved_float representable_max (le_of_eq (abs_of_pos max_pos))
    refine ⟨k, hk0 max_pos.le, (abs_lt.mp hlt).2, ?_⟩
    rw [← hk]
    exact congrArg float16BitsToFloat32
      (floatToFloat16Bits_clamped rfl (le_of_eq (abs_of_pos max_pos)))
  · obtain ⟨k, hk⟩ := roundTrips q
    exact ⟨k, hk.nonneg hq, (abs_lt.mp hk.lt).2, hk.eq⟩

theorem offset_roundTrip (q : ℚ) : ∃ k : Int, |k| < 2 ^ 40 ∧ roundTripFloat16 (.fin q) = .fin (k / 2 ^ 24) := by
  obtain ⟨k, hk⟩ := roundTrips q
  exact ⟨k, hk.lt, hk.eq⟩

/-- Infinity, or an integer, or an integer rounded to a double. -/
def Integral (y : Double) : Prop := (∃ s, y = .inf s) ∨ (∃ n : Int, y = .fin n) ∨ ∃ n : Int, y = ofExact n

theorem integral_round (hy : y ≠ .nan) : Integral y.round := by
  cases y with
  | nan => exact absurd rfl hy
  | inf s => exact .inl ⟨s, rfl⟩
  | fin q => exact .inr (.inl ⟨_, rfl⟩)

theorem integral_add (hy : y ≠ .nan) (b : Int) : Integral (y.round.add (.fin b)) := by
  cases y with
  | nan => exact absurd rfl hy
  | inf s => exact .inl ⟨s, rfl⟩
  | fin q =>
    refine .inr (.inr ⟨roundAway q + b, ?_⟩)
    rw [Int.cast_add]
    rfl

theorem round_large {n : Int} (hn : 2 ^ 53 ≤ |n|) :
    (2 : ℚ) ^ 52 ≤ |Binary.round binary64 (n : ℚ)| ∧ (0 ≤ n → 0 ≤ Binary.round binary64 (n : ℚ)) ∧
      (n ≤ 0 → Binary.round binary64 (n : ℚ) ≤ 0) := by
  have hn' : (2 : ℚ) ^ 53 ≤ |(n : ℚ)| := by exact_mod_cast hn
  have hne : (n : ℚ) ≠ 0 := by
    intro h
    rw [h, abs_zero] at hn'
    norm_num at hn'
  refine ⟨?_, fun h => round_nonneg (by exact_mod_cast h), fun h => round_nonpos (by exact_mod_cast h)⟩
  have herr := round_error_le (f := binary64) hne
  have hmin : (2 : ℚ) ^ binary64.emin / 2 ≤ 1 := by
    have : (2 : ℚ) ^ binary64.emin ≤ 2 ^ (0 : Int) := zpow_le_zpow_right₀ one_le_two (by decide)
    rw [zpow_zero] at this
    linarith
  have hrel : |(n : ℚ)| / 2 ^ binary64.precision ≤ |(n : ℚ)| / 4 := by
    apply div_le_div_of_nonneg_left (abs_nonneg _) (by norm_num)
    norm_num [binary64]
  have htri := abs_sub_abs_le_abs_sub (n : ℚ) (Binary.round binary64 n)
  rw [abs_sub_comm] at htri
  norm_num at hn' ⊢
  linarith

theorem clamp_integral (hy : Integral y) {lo hi : Int} (hle : lo ≤ hi) (hlo : -2 ^ 52 < lo) (hhi : hi < 2 ^ 52) :
    ∃ c : Int, lo ≤ c ∧ c ≤ hi ∧ clamp y lo hi = .fin c := by
  have hint : ∀ n : Int, ∃ c : Int, lo ≤ c ∧ c ≤ hi ∧ clamp (.fin n) lo hi = .fin c := by
    intro n
    refine ⟨min (max n lo) hi, by omega, by omega, ?_⟩
    rw [clamp, max_fin, min_fin]
    push_cast
    rfl
  have hinf : ∀ s, ∃ c : Int, lo ≤ c ∧ c ≤ hi ∧ clamp (.inf s) lo hi = .fin c := by
    intro s
    cases s with
    | true =>
      refine ⟨lo, le_rfl, hle, ?_⟩
      have hlt : ¬(hi : ℚ) < lo := not_lt.mpr (by exact_mod_cast hle)
      simp [clamp, Double.max, Double.lt, Double.min, hlt]
    | false => exact ⟨hi, hle, le_rfl, by simp [clamp, Double.max, Double.lt, Double.min]⟩
  rcases hy with ⟨s, rfl⟩ | ⟨n, rfl⟩ | ⟨n, rfl⟩
  · exact hinf s
  · exact hint n
  · by_cases hsmall : |n| < 2 ^ 53
    · have hexact : ofExact (n : ℚ) = .fin n := by
        have hrep : Representable binary64 (n : ℚ) := ⟨n, 0, hsmall, by decide, by simp⟩
        have hlt : |(n : ℚ)| < 2 ^ 1024 := by
          have hn' : |(n : ℚ)| < 2 ^ 53 := by exact_mod_cast hsmall
          exact hn'.trans_le (pow_le_pow_right₀ one_le_two (by norm_num))
        rw [ofExact, round_exact hrep, if_pos hlt]
      rw [hexact]
      exact hint n
    · obtain ⟨hlarge, hpos, hneg⟩ := round_large (not_lt.mp hsmall)
      rcases ofExact_cases (n : ℚ) with h | h
      · rw [h, clamp, max_fin, min_fin]
        have hlo' : (-2 ^ 52 : ℚ) < lo := by exact_mod_cast hlo
        have hhi' : (hi : ℚ) < 2 ^ 52 := by exact_mod_cast hhi
        have hle' : (lo : ℚ) ≤ hi := by exact_mod_cast hle
        rcases le_total 0 n with hn | hn
        · rw [abs_of_nonneg (hpos hn)] at hlarge
          exact ⟨hi, hle, le_rfl, by rw [max_eq_left (by linarith), min_eq_right (by linarith)]⟩
        · rw [abs_of_nonpos (hneg hn)] at hlarge
          exact ⟨lo, le_rfl, hle, by rw [max_eq_right (by linarith), min_eq_left hle']⟩
      · rw [h]
        exact hinf _

end Onnxsim.BlockQuant.Codes

namespace Onnxsim.BlockQuant.Statistics

open List Doubles Kernels Codes

def meanAbs (data : Block) : Double :=
  (data.foldl (fun sum w => Double.add sum (Double.fabs (.fin w.value))) (.fin 0)).div (.fin data.length)

theorem nonNeg_foldl_max (xs : List Double) (hxs : ∀ x ∈ xs, NonNeg x) (y : Double) (hy : NonNeg y) :
    NonNeg (xs.foldl Double.max y) := by
  induction xs generalizing y with
  | nil => exact hy
  | cons x xs ih =>
    exact ih (fun z hz => hxs z (mem_cons_of_mem x hz)) _
      (nonNeg_max hy (hxs x mem_cons_self))

theorem nonNeg_maxAbs (data : Block) : NonNeg (maxAbs data) := by
  have h := nonNeg_foldl_max (data.map fun w => Double.fabs (.fin w.value)) (by
    intro x hx
    obtain ⟨w, -, rfl⟩ := List.mem_map.mp hx
    exact nonNeg_fin (abs_nonneg w.value)) (.fin 0) (nonNeg_fin le_rfl)
  rwa [foldl_map] at h

variable {data sub : Block}

theorem nonNeg_meanAbs (hne : data ≠ []) : NonNeg (meanAbs data) := by
  have hsum : ∀ (ws : Block) (y : Double), NonNeg y →
      NonNeg (ws.foldl (fun sum w => Double.add sum (Double.fabs (.fin w.value))) y) := by
    intro ws
    induction ws with
    | nil => exact fun y hy => hy
    | cons w ws ih => exact fun y hy => ih _ (nonNeg_add hy (nonNeg_fin (abs_nonneg w.value)))
  apply nonNeg_div (hsum data _ (nonNeg_fin le_rfl))
  exact_mod_cast length_pos_of_ne_nil hne

theorem lowest_eq (hne : data ≠ []) :
    ∃ l : ℚ, lowest data = .fin l ∧ (∀ w ∈ data, l ≤ w.value) ∧ ∃ w ∈ data, w.value = l := by
  obtain ⟨w, ws, rfl⟩ := exists_cons_of_ne_nil hne
  have hfold : ∀ (ws : Block) (a : ℚ), ∃ l : ℚ,
      ws.foldl (fun lo w => Double.min lo (.fin w.value)) (.fin a) = .fin l ∧ l ≤ a ∧
        (∀ w ∈ ws, l ≤ w.value) ∧ (l = a ∨ ∃ w ∈ ws, w.value = l) := by
    intro ws
    induction ws with
    | nil => exact fun a => ⟨a, rfl, le_rfl, fun w hw => absurd hw not_mem_nil, .inl rfl⟩
    | cons w ws ih =>
      intro a
      obtain ⟨l, hl, hla, hlws, hlmem⟩ := ih (min a w.value)
      refine ⟨l, ?_, hla.trans (min_le_left _ _), ?_, ?_⟩
      · rw [foldl_cons, min_fin]
        exact hl
      · intro v hv
        rcases mem_cons.mp hv with rfl | hv
        · exact hla.trans (min_le_right _ _)
        · exact hlws v hv
      · rcases hlmem with hl | ⟨v, hv, hl⟩
        · rcases min_choice a w.value with h | h
          · exact .inl (hl.trans h)
          · exact .inr ⟨w, mem_cons_self, (hl.trans h).symm⟩
        · exact .inr ⟨v, mem_cons_of_mem w hv, hl⟩
  obtain ⟨l, hl, hla, hlws, hlmem⟩ := hfold ws w.value
  refine ⟨l, hl, ?_, ?_⟩
  · intro v hv
    rcases mem_cons.mp hv with rfl | hv
    · exact hla
    · exact hlws v hv
  · rcases hlmem with hl | ⟨v, hv, hl⟩
    · exact ⟨w, mem_cons_self, hl.symm⟩
    · exact ⟨v, mem_cons_of_mem w hv, hl⟩

theorem highest_eq (hne : data ≠ []) : ∃ h : ℚ, highest data = .fin h ∧ ∀ w ∈ data, w.value ≤ h := by
  obtain ⟨w, ws, rfl⟩ := exists_cons_of_ne_nil hne
  have hfold : ∀ (ws : Block) (a : ℚ), ∃ h : ℚ,
      ws.foldl (fun hi w => Double.max hi (.fin w.value)) (.fin a) = .fin h ∧ a ≤ h ∧
        ∀ w ∈ ws, w.value ≤ h := by
    intro ws
    induction ws with
    | nil => exact fun a => ⟨a, rfl, le_rfl, fun w hw => absurd hw not_mem_nil⟩
    | cons w ws ih =>
      intro a
      obtain ⟨h, hh, hah, hws⟩ := ih (max a w.value)
      refine ⟨h, ?_, (le_max_left _ _).trans hah, ?_⟩
      · rw [foldl_cons, max_fin]
        exact hh
      · intro v hv
        rcases mem_cons.mp hv with rfl | hv
        · exact (le_max_right _ _).trans hah
        · exact hws v hv
  obtain ⟨h, hh, hah, hws⟩ := hfold ws w.value
  refine ⟨h, hh, ?_⟩
  intro v hv
  rcases mem_cons.mp hv with rfl | hv
  · exact hah
  · exact hws v hv

theorem nonNeg_spread (hne : data ≠ []) : NonNeg ((highest data).sub (lowest data)) := by
  obtain ⟨l, hl, hle, w, hw, -⟩ := lowest_eq hne
  obtain ⟨h, hh, hge⟩ := highest_eq hne
  rw [hl, hh]
  apply nonNeg_ofExact
  have := (hle w hw).trans (hge w hw)
  linarith

theorem nonNeg_offset (hne : sub ≠ []) : NonNeg (idealNegOffset sub) := by
  obtain ⟨l, hl, -⟩ := lowest_eq hne
  rw [idealNegOffset, hl]
  change NonNeg ((Double.fin (-l)).max (.fin 0))
  rw [max_fin]
  exact nonNeg_fin (le_max_right _ _)

theorem offset_eq_zero_iff (hne : sub ≠ []) : idealNegOffset sub = .fin 0 ↔ ¬∃ w ∈ sub, w.value < 0 := by
  obtain ⟨l, hl, hle, w, hw, hwl⟩ := lowest_eq hne
  have hmax : idealNegOffset sub = .fin (max (-l) 0) := by
    rw [idealNegOffset, hl]
    exact max_fin (-l) 0
  rw [hmax, Double.fin.injEq, max_eq_right_iff]
  constructor
  · rintro hnonneg ⟨v, hv, hneg⟩
    have := hle v hv
    linarith
  · intro hall
    by_contra hneg
    exact hall ⟨w, hw, by linarith⟩

theorem subBlocks_ne_nil {size : Nat} (hsub : sub ∈ subBlocks size data) : sub ≠ [] := by
  obtain ⟨j, hj, rfl⟩ := List.mem_map.mp hsub
  rw [mem_range] at hj
  have hsize : 0 < size := by
    by_contra hzero
    have : size = 0 := by omega
    subst this
    simp at hj
  have hlt : j * size < data.length := by
    rw [Nat.lt_div_iff_mul_lt hsize] at hj
    have : size * j = j * size := Nat.mul_comm _ _
    omega
  intro hnil
  have := congrArg List.length hnil
  rw [length_take, List.length_drop, length_nil] at this
  omega

end Onnxsim.BlockQuant.Statistics
