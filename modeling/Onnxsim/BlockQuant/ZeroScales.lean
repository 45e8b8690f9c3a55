import Onnxsim.BlockQuant.Kernels

namespace Onnxsim.BlockQuant.ZeroScales

open List Lib Lib.Binary Doubles Halves
open Kernels Codes Statistics

def ZeroByZero (numerator denominator : Double) : Prop := numerator = .fin 0 ∧ denominator = .fin 0

/-- No `0/0`, a code of the format, and the weight that the code stands for. `codes` are the least and the
greatest code and the code of zero. -/
structure SoundElement (codes : Int × Int × Int) (e : Element) : Prop where
  quotient : ¬ZeroByZero e.numerator e.denominator
  written : ∃ c : Int, codes.1 ≤ c ∧ c ≤ codes.2.1 ∧ e.code = .fin c ∧
    ∃ s m : ℚ, e.scale = .fin s ∧ e.offset = .fin m ∧ e.written = .fin ((c - codes.2.2) * s + m)

structure Sound (codes : Int × Int × Int) (parts : List Part) : Prop where
  quotients : ∀ p ∈ parts, ∀ q ∈ p.quotients, ¬ZeroByZero q.1 q.2
  elements : ∀ p ∈ parts, ∀ e ∈ p.elements, SoundElement codes e

def Vanishes (y : Double) : Prop := ∃ q : ℚ, y = .fin q ∧ |Binary.round binary32 q| < 1 / 2 ^ 25

/-- Where the scale of the block vanishes, no weight is zero. -/
def SymmetricSafe (bias : Int) (data : Block) : Prop :=
  Vanishes (((maxAbs data).max tiny).div (.fin bias)) → ∀ w ∈ data, w.value ≠ 0

/-- Where it vanishes, no weight is the half that stands for the least one. -/
def AffineSafe (maxCode : Int) (data : Block) : Prop :=
  Vanishes ((((highest data).sub (lowest data)).max tiny).div (.fin maxCode)) →
    ∀ w ∈ data, .fin w.value ≠ roundTripFloat16 (lowest data)

def TernarySafe (data : Block) : Prop := Vanishes ((meanAbs data).max tiny) → ∀ w ∈ data, w.value ≠ 0

/-- Where the scale of the offsets vanishes, every sub-block has a negative weight. -/
def SuperSafe (f : KFormat) (data : Block) : Prop :=
  Vanishes (((greatest ((subBlocks f.subBlockSize data).map idealNegOffset)).max tiny).div
      (.fin f.maxSubScaleCode)) →
    ∀ sub ∈ subBlocks f.subBlockSize data, ∃ w ∈ sub, w.value < 0

def Safe : Kernel → Block → Prop
  | .q2K, data => SuperSafe q2K data
  | .q3K, _ => True
  | .q4K, data => SuperSafe q4K data
  | .q5K, data => SuperSafe q5K data
  | .q4_0, data => SymmetricSafe 8 data
  | .q4_1, data => AffineSafe 15 data
  | .q5_0, data => SymmetricSafe 16 data
  | .q5_1, data => AffineSafe 31 data
  | .ternary, data => TernarySafe data

variable {x : Double} {b : ℚ} {k a j : Int}

theorem div_ne_nan (hx : x ≠ .nan) (h : ¬ZeroByZero x (.fin b)) : x.div (.fin b) ≠ .nan := by
  cases x with
  | nan => exact absurd rfl hx
  | inf s => simp [Double.div]
  | fin a =>
    rw [Double.div]
    by_cases hb : b = 0
    · rw [if_pos hb]
      have ha : a ≠ 0 := by
        rintro rfl
        exact h ⟨rfl, by rw [hb]⟩
      simp [ha]
    · rw [if_neg hb]
      rcases ofExact_cases (a / b) with h | h <;> simp [h]

theorem sub_ne_nan (a b : ℚ) : (Double.fin a).sub (.fin b) ≠ .nan := by
  change ofExact (a + -b) ≠ .nan
  rcases ofExact_cases (a + -b) with h | h <;> simp [h]

theorem sub_eq_zero_iff {a : ℚ} (ha : Representable binary64 a) (hb : Representable binary64 b) :
    (Double.fin a).sub (.fin b) = .fin 0 ↔ a = b := by
  change ofExact (a + -b) = .fin 0 ↔ a = b
  constructor
  · intro h
    by_contra hne
    have hround : Binary.round binary64 (a + -b) ≠ 0 := by
      apply round_ne_zero one_le_precision64
      rw [← sub_eq_add_neg]
      exact emin_le_abs_sub ha hb hne
    rcases ofExact_cases (a + -b) with heq | heq
    · rw [heq, Double.fin.injEq] at h
      exact hround h
    · rw [heq] at h
      cases h
  · rintro rfl
    rw [add_neg_cancel, ofExact, Binary.round_zero, abs_zero, if_pos (by positivity)]

theorem mul_grid (h : |a * k| < 2 ^ 53) : (Double.fin a).mul (.fin (k / 2 ^ 24)) = .fin ((a * k : Int) / 2 ^ 24) := by
  have hq : (a : ℚ) * (k / 2 ^ 24) = (a * k : Int) / 2 ^ 24 := by
    push_cast
    ring
  change ofExact _ = _
  rw [hq]
  exact ofExact_of_grid rfl h

theorem mul_grid' (h : |a * k| < 2 ^ 53) :
    (Double.fin (k / 2 ^ 24)).mul (.fin a) = .fin ((a * k : Int) / 2 ^ 24) := by
  have hq : (k / 2 ^ 24 : ℚ) * a = (a * k : Int) / 2 ^ 24 := by
    push_cast
    ring
  change ofExact _ = _
  rw [hq]
  exact ofExact_of_grid rfl h

theorem add_grid (h : |j + k| < 2 ^ 53) :
    (Double.fin (j / 2 ^ 24)).add (.fin (k / 2 ^ 24)) = .fin ((j + k : Int) / 2 ^ 24) := by
  have hq : (j / 2 ^ 24 : ℚ) + k / 2 ^ 24 = (j + k : Int) / 2 ^ 24 := by
    push_cast
    ring
  change ofExact _ = _
  rw [hq]
  exact ofExact_of_grid rfl h

theorem roundTrip_eq_zero_iff {y : Double} (hy : Pos y) : roundTripFloat16 y = .fin 0 ↔ Vanishes y := by
  rcases hy with rfl | ⟨q, hq, rfl⟩
  · obtain ⟨k, hk, -, -, hzero⟩ := halved_float representable_max (le_of_eq (abs_of_pos max_pos))
    have heq : roundTripFloat16 (.inf false) = .fin (k / 2 ^ 24) := by
      rw [← hk]
      exact congrArg float16BitsToFloat32
        (floatToFloat16Bits_clamped rfl (le_of_eq (abs_of_pos max_pos)))
    apply iff_of_false
    · intro h
      rw [heq, Double.fin.injEq, div_eq_zero_iff] at h
      have hk0 : k = 0 := by
        rcases h with h | h
        · exact_mod_cast h
        · norm_num at h
      have := hzero.mp hk0
      rw [abs_of_pos max_pos] at this
      norm_num [kFloat16Max] at this
    · rintro ⟨q, hq, -⟩
      cases hq
  · obtain ⟨k, hk⟩ := roundTrips q
    rw [hk.eq, Double.fin.injEq]
    constructor
    · intro h
      refine ⟨q, rfl, hk.zero.mp ?_⟩
      rw [div_eq_zero_iff] at h
      rcases h with h | h
      · exact_mod_cast h
      · norm_num at h
    · rintro ⟨q', hq', hsmall⟩
      cases hq'
      rw [hk.zero.mpr hsmall, Int.cast_zero, zero_div]

theorem pos_max_tiny (hx : NonNeg x) : Pos (x.max tiny) := by
  obtain ⟨t, ht, -, htiny⟩ := tiny_eq
  rcases hx with rfl | ⟨a, -, rfl⟩
  · left
    rw [htiny]
    rfl
  · right
    rw [htiny, max_fin]
    exact ⟨_, lt_of_lt_of_le (by positivity) (ht.trans (le_max_right _ _)), rfl⟩

variable {data : Block}

theorem sound_single {codes : Int × Int × Int} {es : List Element} :
    Sound codes [⟨[], es⟩] ↔ ∀ e ∈ es, SoundElement codes e := by
  constructor
  · intro h e he
    exact h.elements _ (mem_singleton_self _) e he
  · intro h
    refine ⟨?_, ?_⟩
    · intro p hp q hq
      rw [mem_singleton.mp hp] at hq
      cases hq
    · intro p hp e he
      rw [mem_singleton.mp hp] at he
      exact h e he

theorem abs_mul_lt (ha : |a| ≤ 2 ^ 6) (hk0 : 0 ≤ k) (hk : k < 2 ^ 40) : |a * k| < 2 ^ 47 := by
  rw [abs_mul, abs_of_nonneg hk0]
  calc |a| * k ≤ 2 ^ 6 * k := Int.mul_le_mul_of_nonneg_right ha hk0
    _ < 2 ^ 47 := by omega

variable {maxCode msc : Int}

theorem symmetric_sound_iff {bias : Int} (hbias : 0 < bias) (hbias' : bias ≤ 16) (hmax : 0 ≤ maxCode)
    (hmax' : maxCode ≤ 31) (data : Block) :
    Sound (0, maxCode, bias) (symmetricBlock bias maxCode data) ↔ SymmetricSafe bias data := by
  have hpos : Pos (((maxAbs data).max tiny).div (.fin bias)) :=
    pos_guarded (nonNeg_maxAbs data) (by exact_mod_cast hbias)
      (le_trans (show (bias : ℚ) ≤ 16 by exact_mod_cast hbias') (by norm_num))
  have hzero := roundTrip_eq_zero_iff hpos
  obtain ⟨k, hk0, hk, hd⟩ := scaleField_roundTrip hpos.toNonNeg
  rw [symmetricBlock]
  rw [sound_single, SymmetricSafe, ← hzero, hd]
  constructor
  · intro h hvanish w hw hw0
    exact (h _ (List.mem_map_of_mem hw)).quotient ⟨by rw [hw0], hvanish⟩
  · intro h e he
    obtain ⟨w, hw, rfl⟩ := List.mem_map.mp he
    have hquot : ¬ZeroByZero (.fin w.value) (.fin (k / 2 ^ 24)) := by
      rintro ⟨hw0, hd0⟩
      exact h hd0 w hw (Double.fin.inj hw0)
    have hint := integral_add (div_ne_nan (by simp) hquot) bias
    obtain ⟨c, hc, hc', hcode⟩ := clamp_integral hint hmax (by norm_num) (by omega)
    refine ⟨hquot, c, hc, hc', hcode, k / 2 ^ 24, 0, rfl, rfl, ?_⟩
    dsimp only
    rw [hcode]
    have hsub : (Double.fin (c : ℚ)).sub (.fin (bias : ℚ)) = .fin ((c - bias : Int) : ℚ) := by
      change ofExact ((c : ℚ) + -(bias : ℚ)) = _
      have hq : (c : ℚ) + -bias = (c - bias : Int) := by
        push_cast
        ring
      rw [hq]
      apply ofExact_of_grid (k := (c - bias) * 2 ^ 24)
      · push_cast
        ring
      · rw [abs_lt]
        constructor <;> omega
    have hsmall : |c - bias| ≤ 2 ^ 6 := by
      rw [abs_le]
      constructor <;> omega
    rw [hsub, mul_grid ((abs_mul_lt hsmall hk0 hk).trans (by norm_num))]
    congr 1
    push_cast
    ring

theorem ternary_sound_iff (hne : data ≠ []) :
    Sound (-1, 1, 0) (quantizeDequantizeTernaryBlock data) ↔ TernarySafe data := by
  have hpos : Pos ((meanAbs data).max tiny) := pos_max_tiny (nonNeg_meanAbs hne)
  have hzero := roundTrip_eq_zero_iff hpos
  obtain ⟨k, hk0, hk, hd⟩ := scaleField_roundTrip hpos.toNonNeg
  rw [quantizeDequantizeTernaryBlock]
  rw [sound_single, TernarySafe, ← hzero, ← meanAbs, hd]
  constructor
  · intro h hvanish w hw hw0
    exact (h _ (List.mem_map_of_mem hw)).quotient ⟨by rw [hw0], hvanish⟩
  · intro h e he
    obtain ⟨w, hw, rfl⟩ := List.mem_map.mp he
    have hquot : ¬ZeroByZero (.fin w.value) (.fin (k / 2 ^ 24)) := by
      rintro ⟨hw0, hd0⟩
      exact h hd0 w hw (Double.fin.inj hw0)
    have hint := integral_round (div_ne_nan (by simp) hquot)
    obtain ⟨c, hc, hc', hcode⟩ := clamp_integral hint (show (-1 : Int) ≤ 1 by decide) (by norm_num) (by norm_num)
    refine ⟨hquot, c, hc, hc', hcode, k / 2 ^ 24, 0, rfl, rfl, ?_⟩
    have hsmall : |c| ≤ 2 ^ 6 := by
      rw [abs_le]
      constructor <;> omega
    dsimp only
    rw [hcode, mul_grid ((abs_mul_lt hsmall hk0 hk).trans (by norm_num))]
    congr 1
    push_cast
    ring

theorem affine_sound_iff (hmax : 0 < maxCode) (hmax' : maxCode ≤ 31) (hne : data ≠ []) :
    Sound (0, maxCode, 0) (affineBlock maxCode data) ↔ AffineSafe maxCode data := by
  have hpos : Pos ((((highest data).sub (lowest data)).max tiny).div (.fin maxCode)) :=
    pos_guarded (nonNeg_spread hne) (by exact_mod_cast hmax)
      (le_trans (show (maxCode : ℚ) ≤ 31 by exact_mod_cast hmax') (by norm_num))
  have hzero := roundTrip_eq_zero_iff hpos
  obtain ⟨k, hk0, hk, hd⟩ := scaleField_roundTrip hpos.toNonNeg
  obtain ⟨l, hl, -⟩ := lowest_eq hne
  obtain ⟨j, hj, hm⟩ := offset_roundTrip l
  rw [← hl] at hm
  have hrep : Representable binary64 (j / 2 ^ 24 : ℚ) := by
    refine ⟨j, -24, lt_trans hj (by norm_num [binary64]), by decide, ?_⟩
    rw [div_eq_mul_inv]
    norm_num
  rw [affineBlock]
  rw [sound_single, AffineSafe, ← hzero, hd, hm]
  constructor
  · intro h hvanish w hw hw0
    have heq := (sub_eq_zero_iff w.representable hrep).mpr (Double.fin.inj hw0)
    exact (h _ (List.mem_map_of_mem hw)).quotient ⟨heq, hvanish⟩
  · intro h e he
    obtain ⟨w, hw, rfl⟩ := List.mem_map.mp he
    have hquot : ¬ZeroByZero ((Double.fin w.value).sub (.fin (j / 2 ^ 24))) (.fin (k / 2 ^ 24)) := by
      rintro ⟨hw0, hd0⟩
      exact h hd0 w hw (congrArg Double.fin ((sub_eq_zero_iff w.representable hrep).mp hw0))
    have hint := integral_round (div_ne_nan (sub_ne_nan _ _) hquot)
    obtain ⟨c, hc, hc', hcode⟩ := clamp_integral hint hmax.le (by norm_num) (by omega)
    refine ⟨hquot, c, hc, hc', hcode, k / 2 ^ 24, j / 2 ^ 24, rfl, rfl, ?_⟩
    have hsmall : |c| ≤ 2 ^ 6 := by
      rw [abs_le]
      constructor <;> omega
    have hprod := abs_mul_lt hsmall hk0 hk
    have hsum : |c * k + j| < 2 ^ 53 := by
      have := abs_add_le (c * k) j
      omega
    dsimp only
    rw [hcode, mul_grid (hprod.trans (by norm_num)), add_grid hsum]
    congr 1
    push_cast
    ring

theorem pos_idealScale {f : KFormat} (hmax : 0 < f.maxCode) (hmax' : f.maxCode ≤ 31) {sub : Block}
    (hne : sub ≠ []) : Pos (idealScale f sub) :=
  pos_guarded (nonNeg_spread hne) (by exact_mod_cast hmax)
    (le_trans (show (f.maxCode : ℚ) ≤ 31 by exact_mod_cast hmax') (by norm_num))

theorem pos_superScale {ideals : List Double} (hideals : ∀ x ∈ ideals, NonNeg x) (hmsc : 0 < msc) (hmsc' : msc ≤ 63) :
    Pos (((greatest ideals).max tiny).div (.fin msc)) :=
  pos_guarded (nonNeg_foldl_max ideals hideals _ (nonNeg_fin le_rfl)) (by exact_mod_cast hmsc)
    (le_trans (show (msc : ℚ) ≤ 63 by exact_mod_cast hmsc') (by norm_num))

theorem pos_ne_zero (hx : Pos x) : x ≠ .fin 0 := by
  rcases hx with rfl | ⟨q, hq, rfl⟩
  · simp
  · simpa using hq.ne'

theorem nonNeg_ne_nan (hx : NonNeg x) : x ≠ .nan := by
  rcases hx with rfl | ⟨q, -, rfl⟩ <;> simp

theorem subScale_eq (hx : NonNeg x) (hk0 : 0 ≤ k) (hk : k < 2 ^ 40) (hmsc : 0 < msc) (hmsc' : msc ≤ 63)
    (hquot : ¬ZeroByZero x (.fin (k / 2 ^ 24))) :
    ∃ j : Int, 0 ≤ j ∧ j < 2 ^ 47 ∧
      (Double.fin (k / 2 ^ 24)).mul (clamp (x.div (.fin (k / 2 ^ 24))).round 0 msc) = .fin (j / 2 ^ 24) := by
  have hint := integral_round (div_ne_nan (nonNeg_ne_nan hx) hquot)
  obtain ⟨c, hc, hc', hcode⟩ := clamp_integral hint hmsc.le (by norm_num) (by omega)
  have hsmall : |c| ≤ 2 ^ 6 := by
    rw [abs_le]
    constructor <;> omega
  have hprod := abs_mul_lt hsmall hk0 hk
  refine ⟨c * k, mul_nonneg hc hk0, (abs_lt.mp hprod).2, ?_⟩
  rw [hcode, mul_grid' (hprod.trans (by norm_num))]

theorem safeSubScale_pos (hj : 0 ≤ j) : ∃ b : ℚ, 0 < b ∧ safeSubScale (.fin (j / 2 ^ 24)) = .fin b := by
  rw [safeSubScale]
  by_cases hzero : j = 0
  · subst hzero
    exact ⟨1, one_pos, by simp [Double.lt]⟩
  · have hpos : (0 : ℚ) < j / 2 ^ 24 := by
      have : (0 : ℚ) < j := by exact_mod_cast lt_of_le_of_ne hj (Ne.symm hzero)
      positivity
    exact ⟨_, hpos, by simp [Double.lt, hpos]⟩

theorem element_sound {lo hi i : Int} {shifted : Double} (hshift : shifted ≠ .nan) (hj : 0 ≤ j) (hj' : j < 2 ^ 47)
    (hi' : |i| < 2 ^ 47) (hle : lo ≤ hi) (hlo : -31 ≤ lo) (hhi : hi ≤ 31) :
    ¬ZeroByZero shifted (safeSubScale (.fin (j / 2 ^ 24))) ∧
      ∃ c : Int, lo ≤ c ∧ c ≤ hi ∧
        clamp (shifted.div (safeSubScale (.fin (j / 2 ^ 24)))).round lo hi = .fin c ∧
          (Double.fin c).mul (.fin (j / 2 ^ 24)) = .fin ((c * j : Int) / 2 ^ 24) ∧
            ((Double.fin c).mul (.fin (j / 2 ^ 24))).add (.fin (i / 2 ^ 24)) =
              .fin ((c - 0) * (j / 2 ^ 24) + i / 2 ^ 24) := by
  obtain ⟨b, hb, hsafe⟩ := safeSubScale_pos hj
  rw [hsafe]
  have hquot : ¬ZeroByZero shifted (.fin b) := fun h => hb.ne' (Double.fin.inj h.2)
  have hint := integral_round (div_ne_nan hshift hquot)
  obtain ⟨c, hc, hc', hcode⟩ := clamp_integral hint hle (by omega) (by omega)
  have hsmall : |c| ≤ 31 := by
    rw [abs_le]
    constructor <;> omega
  have hprod : |c * j| ≤ 31 * 2 ^ 47 := by
    rw [abs_mul, abs_of_nonneg hj]
    exact Int.mul_le_mul hsmall hj'.le hj (by norm_num)
  have hmul : (Double.fin c).mul (.fin (j / 2 ^ 24)) = .fin ((c * j : Int) / 2 ^ 24) :=
    mul_grid (hprod.trans_lt (by norm_num))
  refine ⟨hquot, c, hc, hc', hcode, hmul, ?_⟩
  have hsum : |c * j + i| < 2 ^ 53 := by
    have := abs_add_le (c * j) i
    omega
  rw [hmul, add_grid hsum]
  congr 1
  push_cast
  ring

variable {f : KFormat}

theorem affineSuper_sound_iff (hmax : 0 < f.maxCode) (hmax' : f.maxCode ≤ 31) (hmsc : 0 < f.maxSubScaleCode)
    (hmsc' : f.maxSubScaleCode ≤ 63) :
    Sound (0, f.maxCode, 0) (affineSuperBlock f data) ↔ SuperSafe f data := by
  have hscales : ∀ x ∈ (subBlocks f.subBlockSize data).map (idealScale f), NonNeg x := by
    intro x hx
    obtain ⟨sub, hsub, rfl⟩ := List.mem_map.mp hx
    exact (pos_idealScale hmax hmax' (subBlocks_ne_nil hsub)).toNonNeg
  have hoffsets : ∀ x ∈ (subBlocks f.subBlockSize data).map idealNegOffset, NonNeg x := by
    intro x hx
    obtain ⟨sub, hsub, rfl⟩ := List.mem_map.mp hx
    exact nonNeg_offset (subBlocks_ne_nil hsub)
  obtain ⟨k, hk0, hk, hd⟩ := scaleField_roundTrip (pos_superScale hscales hmsc hmsc').toNonNeg
  have hpos := pos_superScale hoffsets hmsc hmsc'
  have hzero := roundTrip_eq_zero_iff hpos
  obtain ⟨k', hk0', hk', hdmin⟩ := scaleField_roundTrip hpos.toNonNeg
  rw [affineSuperBlock]
  rw [SuperSafe, ← hzero, superScale, hd, superScale, hdmin]
  constructor
  · intro h hvanish sub hsub
    by_contra hnone
    refine h.quotients _ (List.mem_map_of_mem hsub) (idealNegOffset sub, .fin (k' / 2 ^ 24)) ?_ ⟨?_, hvanish⟩
    · exact mem_cons_of_mem _ (mem_singleton_self _)
    · exact (offset_eq_zero_iff (subBlocks_ne_nil hsub)).mpr hnone
  · intro h
    have hscale : ∀ sub ∈ subBlocks f.subBlockSize data,
        ¬ZeroByZero (idealScale f sub) (.fin (k / 2 ^ 24)) := by
      intro sub hsub hquot
      exact pos_ne_zero (pos_idealScale hmax hmax' (subBlocks_ne_nil hsub)) hquot.1
    have hoffset : ∀ sub ∈ subBlocks f.subBlockSize data,
        ¬ZeroByZero (idealNegOffset sub) (.fin (k' / 2 ^ 24)) := by
      intro sub hsub hquot
      exact (offset_eq_zero_iff (subBlocks_ne_nil hsub)).mp hquot.1 (h hquot.2 sub hsub)
    constructor
    · intro p hp q hq
      obtain ⟨sub, hsub, rfl⟩ := List.mem_map.mp hp
      rcases mem_cons.mp hq with rfl | hq
      · exact hscale sub hsub
      · rw [mem_singleton.mp hq]
        exact hoffset sub hsub
    · intro p hp e he
      obtain ⟨sub, hsub, rfl⟩ := List.mem_map.mp hp
      obtain ⟨w, hw, rfl⟩ := List.mem_map.mp he
      have hne := subBlocks_ne_nil hsub
      obtain ⟨j, hj, hj', hsub⟩ := subScale_eq (pos_idealScale hmax hmax' hne).toNonNeg hk0 hk hmsc hmsc'
        (hscale sub hsub)
      obtain ⟨i, hi, hi', hmin⟩ := subScale_eq (nonNeg_offset hne) hk0' hk' hmsc hmsc' (hoffset sub ‹_›)
      rw [hsub, hmin]
      have hneg : (Double.fin (i / 2 ^ 24)).neg = .fin ((-i : Int) / 2 ^ 24) := by
        rw [Double.neg]
        congr 1
        push_cast
        ring
      rw [hneg]
      have hsmall : |-i| < 2 ^ 47 := by
        rw [abs_neg, abs_of_nonneg hi]
        exact hi'
      obtain ⟨hquot, c, hc, hc', hcode, -, hwritten⟩ := element_sound
        (sub_ne_nan w.value (((-i : Int) : ℚ) / 2 ^ 24)) hj hj' hsmall hmax.le (by norm_num) hmax'
      refine ⟨hquot, c, hc, hc', hcode, _, _, rfl, rfl, ?_⟩
      dsimp only
      rw [hcode, hwritten]
      simp only [Int.cast_zero]

theorem super3_sound (data : Block) : Sound (-4, 3, 0) (quantizeDequantizeQ3KSuperBlock data) := by
  have hideal : ∀ sub : Block, Pos (idealScale3 sub) := fun sub =>
    pos_guarded (nonNeg_maxAbs sub) (by norm_num) (by norm_num)
  have hscales : ∀ x ∈ (subBlocks 16 data).map idealScale3, NonNeg x := by
    intro x hx
    obtain ⟨sub, -, rfl⟩ := List.mem_map.mp hx
    exact (hideal sub).toNonNeg
  obtain ⟨k, hk0, hk, hd⟩ := scaleField_roundTrip
    (pos_superScale hscales (show (0 : Int) < 31 by decide) (by decide)).toNonNeg
  have hscale : ∀ sub : Block, ¬ZeroByZero (idealScale3 sub) (.fin (k / 2 ^ 24)) := fun sub h =>
    pos_ne_zero (hideal sub) h.1
  rw [quantizeDequantizeQ3KSuperBlock]
  rw [superScale, hd]
  constructor
  · intro p hp q hq
    obtain ⟨sub, -, rfl⟩ := List.mem_map.mp hp
    rw [mem_singleton.mp hq]
    exact hscale sub
  · intro p hp e he
    obtain ⟨sub, -, rfl⟩ := List.mem_map.mp hp
    obtain ⟨w, -, rfl⟩ := List.mem_map.mp he
    obtain ⟨j, hj, hj', hsub⟩ := subScale_eq (hideal sub).toNonNeg hk0 hk (show (0 : Int) < 31 by decide)
      (by decide) (hscale sub)
    rw [hsub]
    have hshift : Double.fin w.value ≠ .nan := by simp
    obtain ⟨hquot, c, hc, hc', hcode, hwritten, -⟩ := element_sound hshift hj hj'
      (show |(0 : Int)| < 2 ^ 47 by norm_num) (show (-4 : Int) ≤ 3 by decide) (by decide) (by decide)
    refine ⟨hquot, c, hc, hc', hcode, _, _, rfl, rfl, ?_⟩
    dsimp only
    rw [hcode, hwritten]
    congr 1
    push_cast
    ring

/-- A kernel is sound on a block exactly when the block keeps clear of the vanished scale. -/
theorem sound_iff (kernel : Kernel) (data : Block) (hne : data ≠ []) :
    Sound kernel.codes (kernel.run data) ↔ Safe kernel data := by
  cases kernel with
  | q2K => exact affineSuper_sound_iff (f := q2K) (by decide) (by decide) (by decide) (by decide)
  | q3K => exact iff_of_true (super3_sound data) trivial
  | q4K => exact affineSuper_sound_iff (f := q4K) (by decide) (by decide) (by decide) (by decide)
  | q5K => exact affineSuper_sound_iff (f := q5K) (by decide) (by decide) (by decide) (by decide)
  | q4_0 => exact symmetric_sound_iff (by decide) (by decide) (by decide) (by decide) data
  | q4_1 => exact affine_sound_iff (by decide) (by decide) hne
  | q5_0 => exact symmetric_sound_iff (by decide) (by decide) (by decide) (by decide) data
  | q5_1 => exact affine_sound_iff (by decide) (by decide) hne
  | ternary => exact ternary_sound_iff hne

def one : Weight where
  value := 1
  representable := ⟨1, 0, by decide, by decide, by norm_num⟩
  bounded := by
    rw [abs_one]
    exact one_lt_pow₀ one_lt_two (by decide)

/-- A super-block without a negative weight. -/
theorem q4K_one_iff : Sound Kernel.q4K.codes (Kernel.q4K.run [one]) ↔ Safe .q4K [one] :=
  sound_iff .q4K [one] (cons_ne_nil _ _)

theorem abs_round_le (f : Format) (q : ℚ) : |Binary.round f q| ≤ 2 * |q| + 2 ^ f.emin := by
  by_cases hq : q = 0
  · subst hq
    rw [Binary.round_zero, abs_zero]
    positivity
  · have herr := round_error_le (f := f) hq
    have htri := abs_add_le (Binary.round f q - q) q
    rw [sub_add_cancel] at htri
    have hrel : |q| / 2 ^ f.precision ≤ |q| := div_le_self (abs_nonneg q) (one_le_pow₀ one_le_two)
    have hmin : (0 : ℚ) < 2 ^ f.emin := by positivity
    linarith

theorem vanishes_tiny (hb : 1 ≤ b) : Vanishes (tiny.div (.fin b)) := by
  obtain ⟨t, ht0, ht, htiny⟩ := tiny_eq
  have hquot : |t / b| ≤ 1 / 2 ^ 30 := by
    have hpos : 0 ≤ t := le_trans (by positivity) ht0
    rw [abs_of_nonneg (div_nonneg hpos (by linarith))]
    exact (div_le_self hpos hb).trans ht
  have h64 := abs_round_le binary64 (t / b)
  have h32 := abs_round_le binary32 (Binary.round binary64 (t / b))
  have hmin64 : (2 : ℚ) ^ binary64.emin ≤ 2 ^ (-40 : Int) := zpow_le_zpow_right₀ one_le_two (by decide)
  have hmin32 : (2 : ℚ) ^ binary32.emin ≤ 2 ^ (-40 : Int) := zpow_le_zpow_right₀ one_le_two (by decide)
  have hforty : (2 : ℚ) ^ (-40 : Int) = 1 / 2 ^ 40 := by norm_num
  rw [hforty] at hmin64 hmin32
  have hr64 : |Binary.round binary64 (t / b)| ≤ 3 / 2 ^ 30 := by
    have : (2 : ℚ) * (1 / 2 ^ 30) + 1 / 2 ^ 40 ≤ 3 / 2 ^ 30 := by norm_num
    linarith
  refine ⟨Binary.round binary64 (t / b), ?_, ?_⟩
  · rw [htiny, Double.div, if_neg (by linarith), ofExact, if_pos]
    refine hr64.trans_lt (lt_of_lt_of_le ?_ (one_le_pow₀ one_le_two))
    norm_num
  · have : (2 : ℚ) * (3 / 2 ^ 30) + 1 / 2 ^ 40 < 1 / 2 ^ 25 := by norm_num
    linarith

/-- A super-block of one positive weight takes `0/0` for its offset. -/
theorem q4K_not_sound : ¬Sound Kernel.q4K.codes (Kernel.q4K.run [one]) := by
  intro h
  have hsafe : SuperSafe q4K [one] :=
    (affineSuper_sound_iff (f := q4K) (by decide) (by decide) (by decide) (by decide)).mp h
  have hsubs : subBlocks q4K.subBlockSize [one] = [[one]] := rfl
  have hoffset : idealNegOffset [one] = .fin 0 := by
    change (Double.fin (-1)).max (.fin 0) = .fin 0
    rw [max_fin, max_eq_right (by norm_num)]
  obtain ⟨t, ht, -, htiny⟩ := tiny_eq
  have hguard : (greatest [idealNegOffset [one]]).max tiny = tiny := by
    have hgreatest : greatest [idealNegOffset [one]] = .fin 0 := by
      rw [hoffset]
      change (Double.fin 0).max (.fin 0) = .fin 0
      rw [max_fin, max_self]
    rw [hgreatest, htiny, max_fin, max_eq_right (le_trans (by positivity) ht)]
  rw [SuperSafe, hsubs, map_cons, map_nil, hguard] at hsafe
  obtain ⟨w, hw, hneg⟩ := hsafe (vanishes_tiny (by norm_num [q4K])) [one] (mem_singleton_self _)
  rw [mem_singleton.mp hw] at hneg
  exact absurd hneg (by norm_num [one])

end Onnxsim.BlockQuant.ZeroScales
