import Mathlib.Algebra.Order.Archimedean.Basic
import Mathlib.Data.List.Sort
import Onnxsim.Lib.Binary
import Onnxsim.Lib.Results

namespace Onnxsim.QuantInt.Requantise

open Lib.Ties

inductive PyError where
  | zeroDivision
deriving DecidableEq, Repr

/-- The unit roundoff of float32, `_U32`. -/
def u32 : ℚ := 1 / 2 ^ 24

def rneFraction (v : ℚ) : Int :=
  let fl := v.num / v.den
  let rem := v - fl
  if rem > 1 / 2 ∨ (rem = 1 / 2 ∧ fl % 2 = 1) then fl + 1 else fl

/-- The runtime's pipeline, `fl` being the rounding of float32. -/
def fp32Requant (fl : ℚ → ℚ) (acc : Int) (m32 : ℚ) (zy qmin qmax : Int) : Int :=
  let r := fl (fl acc * m32)
  let q := rneFraction r + zy
  max qmin (min qmax q)

def realRequant (acc : Int) (mReal : ℚ) (zy qmin qmax : Int) : Int :=
  let q := rneFraction (acc * mReal) + zy
  max qmin (min qmax q)

def requantRelEps (mReal m32 : ℚ) : ℚ :=
  let e0 := |m32 - mReal| / mReal
  (1 + e0) * (1 + u32) ^ 2 - 1

/-- `range(lo, hi)` -/
def intRange (lo hi : Int) : List Int := (List.range (hi - lo).toNat).map fun i : Nat => lo + i

/-- The accumulators that are candidates for the tie `k + 1/2`. -/
def window (mReal eps : ℚ) (accLo accHi k : Int) : Except PyError (Int × Int) :=
  let t : ℚ := (2 * k + 1) / 2
  if 1 - eps = 0 then .error .zeroDivision
  else
    let delta := eps * |t| / (1 - eps)
    .ok (max accLo ⌈(t - delta) / mReal⌉, min accHi ⌊(t + delta) / mReal⌋)

variable (fl : ℚ → ℚ) (mReal m32 : ℚ) (zy qmin qmax accLo accHi : Int)

def differs (acc : Int) : Bool := fp32Requant fl acc m32 zy qmin qmax ≠ realRequant acc mReal zy qmin qmax

/-- The loop over the ties that are left, after `seen` candidates. -/
def requantLoop (eps : ℚ) (maxCandidates : Int) :
    List Int → Int → List Int → Except PyError (Option (List Int))
  | [], _, diffs => .ok (some diffs)
  | k :: ks, seen, diffs => do
    let (lo, hi) ← window mReal eps accLo accHi k
    if hi < lo then requantLoop eps maxCandidates ks seen diffs
    else if seen + (hi - lo + 1) > maxCandidates then .ok none
    else
      requantLoop eps maxCandidates ks (seen + (hi - lo + 1))
        (diffs ++ (intRange lo (hi + 1)).filter (differs fl mReal m32 zy qmin qmax))

def requantDifferences (maxCandidates : Int) : Except PyError (Option (List Int)) := do
  let diffs ← requantLoop fl mReal m32 zy qmin qmax accLo accHi (requantRelEps mReal m32) maxCandidates
    (intRange (qmin - zy) (qmax - zy)) 0 []
  pure (diffs.map fun ds => ds.dedup.mergeSort)

end Onnxsim.QuantInt.Requantise

namespace Onnxsim.QuantInt.TieWindows

open List Lib.Ties Lib.Results Requantise

/-- A rounding of float32, of which nothing is known but its relative error. -/
structure Float32Rounding (fl : ℚ → ℚ) : Prop where
  zero : fl 0 = 0
  error : ∀ v, |fl v - v| ≤ u32 * |v|

theorem rneFraction_eq (v : ℚ) : rneFraction v = halfEven v := by
  rw [rneFraction, halfEven, ← Rat.floor_def']

theorem nearest_rneFraction : Nearest rneFraction := fun v => by
  rw [rneFraction_eq]
  exact nearest_halfEven v

theorem fp32Requant_eq (fl : ℚ → ℚ) (acc : Int) (m32 : ℚ) (zy qmin qmax : Int) :
    fp32Requant fl acc m32 zy qmin qmax =
      saturate qmin qmax (rneFraction (fl (fl acc * m32)) + zy) := rfl

theorem realRequant_eq (acc : Int) (mReal : ℚ) (zy qmin qmax : Int) :
    realRequant acc mReal zy qmin qmax = saturate qmin qmax (rneFraction (acc * mReal) + zy) := rfl

theorem u32_pos : 0 < u32 := by norm_num [u32]

variable {mReal m32 : ℚ}

theorem relEps_nonneg (hm : 0 < mReal) : 0 ≤ requantRelEps mReal m32 := by
  have he : 0 ≤ |m32 - mReal| / mReal := by positivity
  have hu : (1 : ℚ) ≤ (1 + u32) ^ 2 := one_le_pow₀ (by linarith [u32_pos])
  rw [requantRelEps]
  have := mul_le_mul (show (1 : ℚ) ≤ 1 + |m32 - mReal| / mReal by linarith) hu zero_le_one (by linarith)
  linarith

theorem multiplier_le (hm : 0 < mReal) : m32 ≤ (1 + |m32 - mReal| / mReal) * mReal := by
  rw [add_mul, one_mul, div_mul_cancel₀ _ hm.ne']
  linarith [le_abs_self (m32 - mReal)]

theorem pipeline_error {fl : ℚ → ℚ} (hfl : Float32Rounding fl) (hm : 0 < mReal) (hm32 : 0 ≤ m32) (acc : ℚ) :
    |fl (fl acc * m32) - acc * mReal| ≤ requantRelEps mReal m32 * |acc * mReal| := by
  have hu := u32_pos.le
  have hcast := hfl.error acc
  have hsize : |fl acc| ≤ (1 + u32) * |acc| := by
    have := abs_add_le (fl acc - acc) acc
    rw [sub_add_cancel] at this
    linarith
  have hproduct : |fl (fl acc * m32) - fl acc * m32| ≤ u32 * (1 + u32) * |acc| * m32 := by
    have h := hfl.error (fl acc * m32)
    rw [abs_mul, abs_of_nonneg hm32] at h
    have := mul_le_mul_of_nonneg_right (mul_le_mul_of_nonneg_left hsize hu) hm32
    linarith
  have hmoved : |fl acc * m32 - acc * m32| ≤ u32 * |acc| * m32 := by
    rw [← sub_mul, abs_mul, abs_of_nonneg hm32]
    exact mul_le_mul_of_nonneg_right hcast hm32
  have hscaled : |acc * m32 - acc * mReal| = |acc| * (|m32 - mReal| / mReal * mReal) := by
    rw [← mul_sub, abs_mul, div_mul_cancel₀ _ hm.ne']
  have hsum : |fl (fl acc * m32) - acc * mReal| ≤
      |fl (fl acc * m32) - fl acc * m32| + |fl acc * m32 - acc * m32| + |acc * m32 - acc * mReal| := by
    have h1 := abs_sub_le (fl (fl acc * m32)) (fl acc * m32) (acc * mReal)
    have h2 := abs_sub_le (fl acc * m32) (acc * m32) (acc * mReal)
    linarith
  have hmul : m32 ≤ (1 + |m32 - mReal| / mReal) * mReal := multiplier_le hm
  have hbound := mul_le_mul_of_nonneg_left hmul (show 0 ≤ (u32 * (1 + u32) + u32) * |acc| by positivity)
  rw [requantRelEps, abs_mul acc, abs_of_pos hm]
  linarith

variable {fl : ℚ → ℚ} {zy qmin qmax accLo accHi : Int}

/-- The accumulator lies in the window of some tie whose neighbours are not both saturated. -/
def Enumerated (mReal m32 : ℚ) (zy qmin qmax accLo accHi acc : Int) : Prop :=
  ∃ k, qmin - zy ≤ k ∧ k < qmax - zy ∧
    ∃ w, window mReal (requantRelEps mReal m32) accLo accHi k = .ok w ∧ w.1 ≤ acc ∧ acc ≤ w.2

theorem window_of_near {k acc : Int} (hm : 0 < mReal) (heps : requantRelEps mReal m32 < 1)
    (hlo : accLo ≤ acc) (hhi : acc ≤ accHi)
    (hnear : |acc * mReal - tie k| ≤ requantRelEps mReal m32 * |tie k| / (1 - requantRelEps mReal m32)) :
    ∃ w, window mReal (requantRelEps mReal m32) accLo accHi k = .ok w ∧ w.1 ≤ acc ∧ acc ≤ w.2 := by
  rw [window]
  rw [if_neg (by linarith)]
  refine ⟨_, rfl, ?_, ?_⟩
  · apply max_le hlo
    rw [Int.ceil_le, div_le_iff₀ hm]
    have := (abs_le.mp hnear).1
    rw [tie] at this
    linarith
  · apply le_min hhi
    rw [Int.le_floor, le_div_iff₀ hm]
    have := (abs_le.mp hnear).2
    rw [tie] at this
    linarith

theorem enumerated_of_differs (hfl : Float32Rounding fl) (hm : 0 < mReal) (hm32 : 0 ≤ m32)
    (heps : requantRelEps mReal m32 < 1) {acc : Int} (hlo : accLo ≤ acc) (hhi : acc ≤ accHi)
    (h : fp32Requant fl acc m32 zy qmin qmax ≠ realRequant acc mReal zy qmin qmax) :
    Enumerated mReal m32 zy qmin qmax accLo accHi acc := by
  rw [fp32Requant_eq, realRequant_eq] at h
  obtain ⟨k, hk, hk', hnear⟩ := exists_tie nearest_rneFraction h
  refine ⟨k, hk, hk', window_of_near hm heps hlo hhi ?_⟩
  apply distance_le (relEps_nonneg hm) heps
  exact hnear.trans (pipeline_error hfl hm hm32 acc)

theorem not_enumerated (hm : 0 < mReal) (heps : 1 ≤ requantRelEps mReal m32) (acc : Int) :
    ¬Enumerated mReal m32 zy qmin qmax accLo accHi acc := by
  rintro ⟨k, -, -, w, hw, hlo, hhi⟩
  rw [window] at hw
  split at hw
  · cases hw
  · next hne =>
    cases hw
    have hgt : 1 - requantRelEps mReal m32 < 0 := lt_of_le_of_ne (by linarith) hne
    have htie : 0 < |((2 * k + 1) / 2 : ℚ)| := abs_pos.mpr (tie_ne_zero k)
    have hdelta : requantRelEps mReal m32 * |((2 * k + 1) / 2 : ℚ)| / (1 - requantRelEps mReal m32) < 0 :=
      div_neg_of_pos_of_neg (mul_pos (by linarith) htie) hgt
    have hceil := (Int.ceil_le.mp ((le_max_right _ _).trans hlo))
    have hfloor := (Int.le_floor.mp (hhi.trans (min_le_right _ _)))
    rw [div_le_iff₀ hm] at hceil
    rw [le_div_iff₀ hm] at hfloor
    linarith

variable {eps : ℚ} {maxCandidates : Int}

theorem mem_intRange {lo hi x : Int} : x ∈ intRange lo hi ↔ lo ≤ x ∧ x < hi := by
  simp only [intRange, List.mem_map, mem_range]
  constructor
  · rintro ⟨i, hi, rfl⟩
    omega
  · intro h
    exact ⟨(x - lo).toNat, by omega, by omega⟩

theorem requantLoop_complete (ks : List Int) : ∀ (seen : Int) (diffs ds : List Int),
    requantLoop fl mReal m32 zy qmin qmax accLo accHi eps maxCandidates ks seen diffs = .ok (some ds) →
      (∀ acc ∈ diffs, acc ∈ ds) ∧
        ∀ k ∈ ks, ∀ w, window mReal eps accLo accHi k = .ok w → ∀ acc, w.1 ≤ acc → acc ≤ w.2 →
          differs fl mReal m32 zy qmin qmax acc = true → acc ∈ ds := by
  induction ks with
  | nil =>
    intro seen diffs ds h
    cases h
    exact ⟨fun _ h => h, fun k hk => absurd hk not_mem_nil⟩
  | cons k ks ih =>
    intro seen diffs ds h
    rw [requantLoop] at h
    cases hw : window mReal eps accLo accHi k with
    | error e =>
      rw [hw] at h
      cases h
    | ok w =>
      obtain ⟨lo, hi⟩ := w
      rw [hw] at h
      change (if hi < lo then _ else _) = _ at h
      by_cases hempty : hi < lo
      · rw [if_pos hempty] at h
        obtain ⟨hkeep, hrest⟩ := ih seen diffs ds h
        refine ⟨hkeep, ?_⟩
        intro k' hk' w' hw' acc hlo hhi hdiff
        rcases mem_cons.mp hk' with rfl | hk'
        · rw [hw] at hw'
          cases hw'
          omega
        · exact hrest k' hk' w' hw' acc hlo hhi hdiff
      · rw [if_neg hempty] at h
        split at h
        · cases h
        · obtain ⟨hkeep, hrest⟩ := ih _ _ ds h
          refine ⟨fun acc hacc => hkeep acc (mem_append_left _ hacc), ?_⟩
          intro k' hk' w' hw' acc hlo hhi hdiff
          rcases mem_cons.mp hk' with rfl | hk'
          · rw [hw] at hw'
            cases hw'
            apply hkeep
            apply mem_append_right
            rw [mem_filter, mem_intRange]
            exact ⟨⟨hlo, by omega⟩, hdiff⟩
          · exact hrest k' hk' w' hw' acc hlo hhi hdiff

theorem requantDifferences_lists {ds : List Int}
    (h : requantDifferences fl mReal m32 zy qmin qmax accLo accHi maxCandidates = .ok (some ds)) {acc : Int}
    (hacc : Enumerated mReal m32 zy qmin qmax accLo accHi acc)
    (hdiff : fp32Requant fl acc m32 zy qmin qmax ≠ realRequant acc mReal zy qmin qmax) : acc ∈ ds := by
  rw [requantDifferences] at h
  obtain ⟨found, hfound, hds⟩ := bind_eq_ok h
  cases found with
  | none => cases hds
  | some found =>
    cases hds
    obtain ⟨k, hk, hk', w, hw, hlo, hhi⟩ := hacc
    have hmem := (requantLoop_complete _ 0 [] found hfound).2 k (mem_intRange.mpr ⟨hk, hk'⟩) w hw acc hlo hhi
      (decide_eq_true hdiff)
    rw [mem_mergeSort, mem_dedup]
    exact hmem

/-- For these multipliers the enumeration misses no accumulator on which the two pipelines differ. -/
def Complete (mReal m32 : ℚ) : Prop :=
  ∀ fl, Float32Rounding fl → ∀ zy qmin qmax accLo accHi acc : Int, accLo ≤ acc → acc ≤ accHi →
    fp32Requant fl acc m32 zy qmin qmax ≠ realRequant acc mReal zy qmin qmax →
      Enumerated mReal m32 zy qmin qmax accLo accHi acc ∧
        ∀ maxCandidates ds,
          requantDifferences fl mReal m32 zy qmin qmax accLo accHi maxCandidates = .ok (some ds) → acc ∈ ds

/-- The multipliers are nearer to each other than, up to the roundings, the real one is to zero. -/
def Close (mReal m32 : ℚ) : Prop := |m32 - mReal| * (1 + u32) ^ 2 < (2 - (1 + u32) ^ 2) * mReal

theorem close_iff (hm : 0 < mReal) : Close mReal m32 ↔ requantRelEps mReal m32 < 1 := by
  have hring : requantRelEps mReal m32 - 1 =
      (|m32 - mReal| * (1 + u32) ^ 2 - (2 - (1 + u32) ^ 2) * mReal) / mReal := by
    rw [requantRelEps]
    field_simp
    ring
  rw [Close, ← sub_neg, ← sub_neg (a := requantRelEps mReal m32), hring]
  constructor
  · intro h
    exact div_neg_of_neg_of_pos h hm
  · intro h
    by_contra hge
    exact absurd h (not_lt.mpr (div_nonneg (not_lt.mp hge) hm.le))

theorem identity_rounding : Float32Rounding id where
  zero := rfl
  error v := by
    rw [id_eq, sub_self, abs_zero]
    exact mul_nonneg u32_pos.le (abs_nonneg v)

theorem exists_differs (hne : m32 ≠ mReal) :
    ∃ acc qmin qmax : Int, fp32Requant id acc m32 0 qmin qmax ≠ realRequant acc mReal 0 qmin qmax := by
  have hgap : 0 < |m32 - mReal| := abs_pos.mpr (sub_ne_zero.mpr hne)
  obtain ⟨n, hn⟩ := exists_nat_gt (1 / |m32 - mReal|)
  have hapart : rneFraction ((n : ℚ) * m32) ≠ rneFraction ((n : ℚ) * mReal) := by
    apply rounds_apart nearest_rneFraction
    rw [← mul_sub, abs_mul, Nat.abs_cast]
    rwa [div_lt_iff₀ hgap] at hn
  refine ⟨n, min (rneFraction ((n : ℚ) * m32)) (rneFraction ((n : ℚ) * mReal)),
    max (rneFraction ((n : ℚ) * m32)) (rneFraction ((n : ℚ) * mReal)), ?_⟩
  rw [fp32Requant_eq, realRequant_eq, id_eq, id_eq, saturate, saturate, Int.cast_natCast]
  omega

theorem complete_iff (hm : 0 < mReal) (hm32 : 0 ≤ m32) : Complete mReal m32 ↔ Close mReal m32 := by
  rw [close_iff hm]
  constructor
  · intro h
    by_contra hge
    have heps : 1 ≤ requantRelEps mReal m32 := not_lt.mp hge
    have hne : m32 ≠ mReal := by
      rintro rfl
      rw [requantRelEps] at heps
      norm_num [u32] at heps
    obtain ⟨acc, qmin, qmax, hdiff⟩ := exists_differs hne
    exact not_enumerated hm heps acc (h id identity_rounding 0 qmin qmax acc acc acc le_rfl le_rfl hdiff).1
  · intro heps fl hfl zy qmin qmax accLo accHi acc hlo hhi hdiff
    have henum := enumerated_of_differs hfl hm hm32 heps hlo hhi hdiff
    exact ⟨henum, fun maxCandidates ds hds => requantDifferences_lists hds henum hdiff⟩

/-- A runtime multiplier of three halves of the real one is close enough. -/
theorem complete_iff_half : Complete (1 / 2) (3 / 4) ↔ Close (1 / 2) (3 / 4) :=
  complete_iff (by norm_num) (by norm_num)

/-- With a runtime multiplier that is zero no tie is enumerated, though the outputs differ. -/
theorem not_complete_of_zero : ¬Complete 1 0 := by
  intro h
  have hdiff : fp32Requant id 3 0 0 0 255 ≠ realRequant 3 1 0 0 255 := by decide +kernel
  have heps : 1 ≤ requantRelEps 1 0 := by norm_num [requantRelEps, u32]
  exact not_enumerated one_pos heps 3 (h id identity_rounding 0 0 255 0 10 3 (by decide) (by decide) hdiff).1

end Onnxsim.QuantInt.TieWindows
