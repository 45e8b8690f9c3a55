import Onnxsim.Lib.Progressions
import Onnxsim.Slicing.Rules

namespace Onnxsim.Slicing.Agreement

open List Option Lib.Progressions Rules ShapeRanges.Dims

section

def fromEnd (n v : Int) : Int := if v < 0 then v + n else v

def onnxStart (n start step : Int) : Int :=
  if 0 < step then max 0 (min (fromEnd n start) n) else max 0 (min (fromEnd n start) (n - 1))

def onnxEnd (n stop step : Int) : Int :=
  if 0 < step then max 0 (min (fromEnd n stop) n) else max (-1) (min (fromEnd n stop) (n - 1))

/-- The indices that ONNX takes from an axis of length `n`. -/
def OnnxSlice (n start stop step : Int) : Set Int :=
  {i | n ≠ 0 ∧ i ∈ Terms (onnxStart n start step) (onnxEnd n stop step) step}

noncomputable def onnxLength (n start stop step : Int) : Nat := (OnnxSlice n start stop step).ncard

variable {n start stop step : Int}

theorem onnxLength_zero : onnxLength 0 start stop step = 0 := by simp [onnxLength, OnnxSlice]

theorem onnxLength_eq (hn : n ≠ 0) (hstep : step ≠ 0) :
    onnxLength n start stop step = count (onnxStart n start step) (onnxEnd n stop step) step := by
  rw [onnxLength, ← ncard_Terms hstep]
  congr 1
  ext i
  simp [OnnxSlice, hn]

theorem onnxLength_of_pos (hn : 0 ≤ n) (hstep : 0 < step) :
    onnxLength n start stop step = count (onnxStart n start step) (onnxEnd n stop step) step := by
  by_cases hzero : n = 0
  · subst hzero
    rw [onnxLength_zero, (count_eq_zero_iff_of_pos hstep).mpr]
    simp only [onnxEnd, onnxStart, if_pos hstep]
    omega
  · exact onnxLength_eq hzero hstep.ne'

theorem onnxStart_range (hn : 0 < n) : 0 ≤ onnxStart n start step ∧ onnxStart n start step ≤ n := by
  rw [onnxStart]
  split <;> omega

theorem onnxEnd_range (hn : 0 ≤ n) : -1 ≤ onnxEnd n stop step ∧ onnxEnd n stop step ≤ n := by
  rw [onnxEnd]
  split <;> omega

end

variable {x v len : Int}

theorem int64_of_fits (h : Fits x) : int64 x = some x := if_pos h

theorem offset_eq (hlen : 0 ≤ len) (hlen' : Fits len) (hv : Fits v) : offset len v = some (fromEnd len v) := by
  rw [offset, fromEnd]
  split
  · apply int64_of_fits
    simp only [Fits] at hlen' hv ⊢
    omega
  · rfl

theorem clamp_eq {lo hi : Int} (h : lo ≤ hi) : clamp v lo hi = some (max lo (min v hi)) := by
  rw [clamp, if_neg (by omega)]
  congr 1
  split
  · omega
  · split <;> omega

variable {n start stop step : Int}

/-- The distance from the start to the end in the direction of the step. -/
def span (n start stop step : Int) : Int :=
  if 0 < step then onnxEnd n stop step - onnxStart n start step
  else onnxStart n start step - onnxEnd n stop step

/-- The sum that `shaping::Slice` forms before it divides stays in range. -/
def SumFits (n start stop step : Int) : Prop :=
  0 < span n start stop step → span n start stop step + |step| < 2 ^ 63

instance : Decidable (SumFits n start stop step) := inferInstanceAs (Decidable (_ → _))

theorem span_lt (hn : 0 < n) (hn' : Fits n) : span n start stop step < 2 ^ 63 := by
  have hs : 0 ≤ onnxStart n start step ∧ onnxStart n start step ≤ n := onnxStart_range hn
  have he : -1 ≤ onnxEnd n stop step ∧ onnxEnd n stop step ≤ n := onnxEnd_range hn.le
  have hs' : step ≤ 0 → onnxStart n start step < n := by
    intro hneg
    rw [onnxStart, if_neg (by omega)]
    omega
  have hfit := hn'.2
  rw [span]
  split
  · omega
  · have := hs' (by omega)
    omega

theorem length_eq_of_pos (hn : 0 ≤ n) (hstep : 0 < step) :
    onnxLength n start stop step = (-(-span n start stop step / step)).toNat := by
  rw [onnxLength_of_pos hn hstep, count_of_pos hstep, span, if_pos hstep, neg_sub]

theorem length_eq_of_neg (hn : 0 < n) (hstep : step < 0) :
    onnxLength n start stop step = (-(-span n start stop step / -step)).toNat := by
  rw [onnxLength_eq hn.ne' hstep.ne, count_of_neg hstep, span, if_neg (by omega), neg_sub]

theorem natAbs_quotient {gap size : Int} (hgap : 0 < gap) (hsize : 0 < size) :
    ((-(-gap / size)).toNat : Int) = (gap + size - 1) / size := by
  rw [← add_sub_one_ediv hsize]
  exact Int.toNat_of_nonneg (Int.ediv_nonneg (by omega) hsize.le)

theorem quotient_of_nonpos {gap size : Int} (hgap : gap ≤ 0) (hsize : 0 < size) :
    (-(-gap / size)).toNat = 0 := by
  have := Int.ediv_nonneg (show 0 ≤ -gap by omega) hsize.le
  omega

theorem fits_quotient {top size : Int} (htop : 0 ≤ top) (htop' : top < 2 ^ 63) (hsize : 0 < size) :
    int64 (top.tdiv size) = some (top / size) := by
  rw [Int.tdiv_eq_ediv_of_nonneg htop]
  apply int64_of_fits
  have hnonneg := Int.ediv_nonneg htop hsize.le
  have hle := Int.ediv_le_self size htop
  exact ⟨by omega, by omega⟩

theorem sliceCount_of_pos (hn : 0 ≤ n) (hn' : Fits n) (hstart : Fits start) (hstop : Fits stop)
    (hstep : 0 < step) :
    sliceCount n start stop step =
      if SumFits n start stop step then some (onnxLength n start stop step : Int) else none := by
  have hs : onnxStart n start step = max 0 (min (fromEnd n start) n) := if_pos hstep
  have he : onnxEnd n stop step = max 0 (min (fromEnd n stop) n) := if_pos hstep
  have hspan : span n start stop step = onnxEnd n stop step - onnxStart n start step := if_pos hstep
  rw [sliceCount, offset_eq hn hn' hstart, offset_eq hn hn' hstop]
  simp only [bind_eq_bind, bind_some, if_pos hstep, clamp_eq hn, ← hs, ← he]
  rw [length_eq_of_pos hn hstep]
  by_cases hlt : 0 < span n start stop step
  · have hgap : Fits (onnxEnd n stop step - onnxStart n start step) := by
      have : span n start stop step < 2 ^ 63 := span_lt (by omega) hn'
      exact ⟨by omega, by omega⟩
    rw [if_pos (by omega), int64_of_fits hgap, bind_some, natAbs_quotient hlt hstep, ← hspan]
    by_cases hsum : span n start stop step + step < 2 ^ 63
    · have hfits : SumFits n start stop step := fun _ => by rwa [abs_of_pos hstep]
      rw [if_pos hfits, int64_of_fits ⟨by omega, hsum⟩, bind_some,
        int64_of_fits ⟨by omega, by omega⟩, bind_some, fits_quotient (by omega) (by omega) hstep]
    · have hfits : ¬SumFits n start stop step := fun h => hsum (by
        have := h hlt
        rwa [abs_of_pos hstep] at this)
      have hover : int64 (span n start stop step + step) = none := if_neg fun h => hsum h.2
      rw [if_neg hfits, hover]
      rfl
  · have hfits : SumFits n start stop step := fun h => absurd h hlt
    rw [if_neg (by omega), if_pos hfits, quotient_of_nonpos (by omega) hstep]
    rfl

theorem sliceCount_of_neg (hn : 0 < n) (hn' : Fits n) (hstart : Fits start) (hstop : Fits stop)
    (hstep : step < 0) :
    sliceCount n start stop step =
      if SumFits n start stop step then some (onnxLength n start stop step : Int) else none := by
  have hpos : ¬0 < step := by omega
  have hs : onnxStart n start step = max 0 (min (fromEnd n start) (n - 1)) := if_neg hpos
  have he : onnxEnd n stop step = max (-1) (min (fromEnd n stop) (n - 1)) := if_neg hpos
  have hspan : span n start stop step = onnxStart n start step - onnxEnd n stop step := if_neg hpos
  have habs : |step| = -step := abs_of_neg hstep
  rw [sliceCount, offset_eq hn.le hn' hstart, offset_eq hn.le hn' hstop]
  simp only [bind_eq_bind, bind_some, if_neg hpos,
    clamp_eq (show (0 : Int) ≤ n - 1 by omega), clamp_eq (show (-1 : Int) ≤ n - 1 by omega), ← hs, ← he]
  rw [length_eq_of_neg hn hstep]
  by_cases hlt : 0 < span n start stop step
  · have hgap : Fits (onnxStart n start step - onnxEnd n stop step) := by
      have : span n start stop step < 2 ^ 63 := span_lt hn hn'
      exact ⟨by omega, by omega⟩
    rw [if_pos (by omega), int64_of_fits hgap, bind_some, natAbs_quotient hlt (by omega), ← hspan,
      sub_eq_add_neg (span n start stop step) step]
    by_cases hsum : span n start stop step + -step < 2 ^ 63
    · have hfits : SumFits n start stop step := fun _ => by rwa [habs]
      rw [if_pos hfits, int64_of_fits ⟨by omega, hsum⟩, bind_some,
        int64_of_fits ⟨by omega, by omega⟩, bind_some, int64_of_fits ⟨by omega, by omega⟩,
        bind_some, fits_quotient (by omega) (by omega) (by omega)]
    · have hfits : ¬SumFits n start stop step := fun h => hsum (by
        have := h hlt
        rwa [habs] at this)
      have hover : int64 (span n start stop step + -step) = none := if_neg fun h => hsum h.2
      rw [if_neg hfits, hover]
      rfl
  · have hfits : SumFits n start stop step := fun h => absurd h hlt
    rw [if_neg (by omega), if_pos hfits, quotient_of_nonpos (by omega) (by omega)]
    rfl

theorem sliceCount_of_empty (hstart : Fits start) (hstop : Fits stop) (hstep : step < 0) :
    sliceCount 0 start stop step = none := by
  have hpos : ¬0 < step := by omega
  have hzero : Fits 0 := by decide
  rw [sliceCount, offset_eq le_rfl hzero hstart, offset_eq le_rfl hzero hstop]
  simp [hpos, clamp]

theorem sliceCount_iff (hn : 0 ≤ n) (hn' : Fits n) (hstart : Fits start) (hstop : Fits stop)
    (hstep : step ≠ 0) :
    sliceCount n start stop step = some (onnxLength n start stop step : Int) ↔
      (n = 0 → 0 < step) ∧ SumFits n start stop step := by
  by_cases hempty : n = 0 ∧ step < 0
  · obtain ⟨rfl, hneg⟩ := hempty
    rw [sliceCount_of_empty hstart hstop hneg]
    simp only [true_imp_iff, reduceCtorEq, false_iff, not_and]
    intro hpos
    omega
  · have heq : sliceCount n start stop step =
        if SumFits n start stop step then some (onnxLength n start stop step : Int) else none := by
      by_cases hpos : 0 < step
      · exact sliceCount_of_pos hn hn' hstart hstop hpos
      · exact sliceCount_of_neg (by omega) hn' hstart hstop (by omega)
    have hdir : n = 0 → 0 < step := by omega
    rw [heq, and_iff_right hdir]
    simp

variable {α : Type}

theorem continues_iff (hstep : step ≠ 0) {i : Int} : Continues stop step i ↔ 0 < count i stop step := by
  rw [lt_count_iff hstep, Continues]
  simp

/-- The loop takes every term of the progression, as long as the index stays in range after the last one. -/
theorem enumerate_length (data : List α) (hdata : Fits data.length) (hstep : step ≠ 0) (c : Nat) :
    ∀ i, count i stop step = c → (∀ k < c, 0 ≤ i + (k : Nat) * step ∧ i + (k : Nat) * step < data.length) →
      (enumerate data stop step hstep i).map List.length =
        if c = 0 ∨ Fits (i + c * step) then some c else none := by
  induction c with
  | zero =>
    intro i hcount _
    have hstop : ¬Continues stop step i := by
      rw [continues_iff hstep]
      omega
    rw [enumerate, dif_neg hstop]
    simp
  | succ c ih =>
    intro i hcount hrange
    have hgo : Continues stop step i := by
      rw [continues_iff hstep]
      omega
    have hcount' : count (i + step) stop step = c := by
      have := count_step hstep (s := i) (e := stop) (by omega)
      omega
    have hhere := hrange 0 (Nat.succ_pos c)
    simp only [Nat.cast_zero, zero_mul, add_zero] at hhere
    obtain ⟨x, hx⟩ : ∃ x, data[i.toNat]? = some x :=
      ⟨_, getElem?_eq_getElem (by omega : i.toNat < data.length)⟩
    have hnext : i + step + c * step = i + (c + 1 : Nat) * step := by push_cast; ring
    rw [enumerate, dif_pos hgo, if_pos hhere.1, hx]
    dsimp only
    by_cases hlast : c = 0
    · subst hlast
      have hrest := ih (i + step) hcount' fun k hk => absurd hk (Nat.not_lt_zero k)
      rw [← hnext]
      simp only [Nat.cast_zero, zero_mul, add_zero, Nat.zero_add, true_or, if_true] at hrest ⊢
      by_cases hfits : Fits (i + step)
      · obtain ⟨ys, hys, hlen⟩ := map_eq_some_iff.mp hrest
        simp [hfits, hys, hlen]
      · simp [hfits]
    · have hfits : Fits (i + step) := by
        have hk := hrange 1 (by omega)
        simp only [Nat.cast_one, one_mul] at hk
        exact ⟨by have := hk.1; omega, by have := hk.2; have := hdata.2; omega⟩
      have hrest := ih (i + step) hcount' fun k hk => by
        have := hrange (k + 1) (by omega)
        have hk' : i + ((k + 1 : Nat) : Int) * step = i + step + k * step := by push_cast; ring
        rwa [hk'] at this
      rw [if_pos hfits, Option.map_map]
      have hcomp : (List.length ∘ fun ys => x :: ys) = (· + 1) ∘ (List.length : List α → Nat) := by
        funext ys
        simp
      rw [hcomp, ← Option.map_map, hrest, hnext]
      simp only [hlast, false_or, Nat.add_eq_zero_iff, one_ne_zero, and_false]
      split <;> simp

/-- The index that ends the loop of `EvalSlice` stays in range. -/
def IndexFits (n start stop step : Int) : Prop :=
  0 < onnxLength n start stop step →
    onnxStart n start step + onnxLength n start stop step * step < 2 ^ 63

theorem visited_range (hn : 0 < n) (hstep : step ≠ 0) {k : Nat}
    (hk : k < count (onnxStart n start step) (onnxEnd n stop step) step) :
    0 ≤ onnxStart n start step + k * step ∧ onnxStart n start step + k * step < n := by
  have hbefore := (lt_count_iff hstep k).mp hk
  have hs : 0 ≤ onnxStart n start step ∧ onnxStart n start step ≤ n := onnxStart_range hn
  have he : -1 ≤ onnxEnd n stop step ∧ onnxEnd n stop step ≤ n := onnxEnd_range hn.le
  by_cases hpos : 0 < step
  · rw [if_pos hpos] at hbefore
    have hmul : 0 ≤ (k : Int) * step := by positivity
    omega
  · rw [if_neg hpos] at hbefore
    have hmul : (k : Int) * step ≤ 0 := Int.mul_nonpos_of_nonneg_of_nonpos (by omega) (by omega)
    have hs' : onnxStart n start step < n := by
      rw [onnxStart, if_neg hpos]
      omega
    omega

theorem fits_last (hn : 0 < n) (hstep : step ≠ 0) (hstep' : Fits step) {c : Nat}
    (hc : c = count (onnxStart n start step) (onnxEnd n stop step) step) (hpos : 0 < c) :
    Fits (onnxStart n start step + c * step) ↔ onnxStart n start step + c * step < 2 ^ 63 := by
  apply and_iff_right
  have hbefore : c - 1 < count (onnxStart n start step) (onnxEnd n stop step) step := by omega
  have hlast := visited_range hn hstep hbefore
  have hsucc : ((c - 1 : Nat) : Int) * step + step = c * step := by
    have hcast : ((c - 1 : Nat) : Int) = c - 1 := by omega
    rw [hcast]
    ring
  have := hstep'.1
  omega

theorem enumerate_onnx (data : List α) (hn : n = data.length) (hn' : Fits n) (hpos : 0 < n)
    (hstep : step ≠ 0) (hstep' : Fits step) :
    (enumerate data (onnxEnd n stop step) step hstep (onnxStart n start step)).map List.length =
        some (onnxLength n start stop step) ↔ IndexFits n start stop step := by
  subst hn
  rw [enumerate_length data hn' hstep _ _ rfl fun k hk => visited_range hpos hstep hk, IndexFits,
    onnxLength_eq hpos.ne' hstep]
  by_cases hc : count (onnxStart data.length start step) (onnxEnd data.length stop step) step = 0
  · simp [hc]
  · simp only [hc, false_or, fits_last hpos hstep hstep' rfl (Nat.pos_of_ne_zero hc),
      Nat.pos_of_ne_zero hc, true_imp_iff]
    simp

theorem sliceElements_iff (data : List α) (hn' : Fits data.length) (hstart : Fits start)
    (hstop : Fits stop) (hstep : step ≠ 0) (hstep' : Fits step) :
    (sliceElements data start stop step hstep).map List.length =
        some (onnxLength data.length start stop step) ↔
      ((data.length : Int) = 0 → 0 < step) ∧ IndexFits data.length start stop step := by
  have hn : (0 : Int) ≤ data.length := by omega
  rw [sliceElements]
  simp only [offset_eq hn hn' hstart, offset_eq hn hn' hstop, bind_eq_bind, bind_some]
  by_cases hempty : (data.length : Int) = 0
  · by_cases hpos : 0 < step
    · have hnil : data = [] := eq_nil_of_length_eq_zero (by omega)
      subst hnil
      have hstop : ∀ i : Int, 0 ≤ i → ¬Continues 0 step i := by
        intro i hi
        rw [Continues, if_pos hpos]
        omega
      simp [hpos, clamp_eq, enumerate, hstop, onnxLength_zero, IndexFits]
    · simp [hempty, hpos, clamp]
  · rw [and_iff_right fun h => absurd h hempty]
    have hpos' : (0 : Int) < data.length := by omega
    rw [← enumerate_onnx data rfl hn' hpos' hstep hstep']
    by_cases hpos : 0 < step
    · simp only [if_pos hpos, clamp_eq hn, bind_some, onnxStart, onnxEnd]
    · simp only [if_neg hpos, clamp_eq (show (0 : Int) ≤ data.length - 1 by omega),
        clamp_eq (show (-1 : Int) ≤ data.length - 1 by omega), bind_some, onnxStart, onnxEnd]

/-- A start before the first element stays there in `_slice_len`, where ONNX moves it to the first one. -/
def StartsBefore (n start stop step : Int) : Prop := step < 0 ∧ 0 < n ∧ start < -n ∧ stop < -n

theorem max_quotient {gap size : Int} (hsize : 0 < size) :
    max 0 (-(-gap).fdiv size) = ((-(-gap / size)).toNat : Int) := by
  rw [Int.fdiv_eq_ediv_of_nonneg _ hsize.le]
  omega

theorem sliceLen_of_pos (hn : 0 ≤ n) (hstep : 0 < step) :
    sliceLen n start stop step = onnxLength n start stop step := by
  have hs : min (max (fromEnd n start) 0) n = onnxStart n start step := by
    rw [onnxStart, if_pos hstep]
    omega
  have he : min (max (fromEnd n stop) 0) n = onnxEnd n stop step := by
    rw [onnxEnd, if_pos hstep]
    omega
  simp only [fromEnd] at hs he
  rw [sliceLen, if_pos hstep]
  rw [hs, he, max_quotient hstep, length_eq_of_pos hn hstep, span, if_pos hstep]

theorem sliceLen_of_neg (hn : 0 < n) (hstep : step < 0) :
    sliceLen n start stop step =
      if 0 ≤ fromEnd n start then (onnxLength n start stop step : Int) else 0 := by
  have hpos : ¬0 < step := by omega
  have he : min (max (fromEnd n stop) (-1)) (n - 1) = onnxEnd n stop step := by
    rw [onnxEnd, if_neg hpos]
    omega
  have hlow : -1 ≤ onnxEnd n stop step := (onnxEnd_range hn.le).1
  rw [sliceLen, if_neg hpos]
  simp only [fromEnd] at he
  rw [he, max_quotient (by omega)]
  change ((-(-(min (max (fromEnd n start) (-1)) (n - 1) - onnxEnd n stop step) / -step)).toNat : Int) = _
  by_cases hstart : 0 ≤ fromEnd n start
  · have hs : min (max (fromEnd n start) (-1)) (n - 1) = onnxStart n start step := by
      rw [onnxStart, if_neg hpos]
      omega
    rw [if_pos hstart, hs, length_eq_of_neg hn hstep, span, if_neg hpos]
  · rw [if_neg hstart, quotient_of_nonpos (by omega) (by omega)]
    rfl

theorem sliceLen_iff (hn : 0 ≤ n) (hstep : step ≠ 0) :
    sliceLen n start stop step = onnxLength n start stop step ↔ ¬StartsBefore n start stop step := by
  by_cases hpos : 0 < step
  · have hnot : ¬StartsBefore n start stop step := fun h => by
      have := h.1
      omega
    exact iff_of_true (sliceLen_of_pos hn hpos) hnot
  · have hneg : step < 0 := by omega
    by_cases hzero : n = 0
    · subst hzero
      have hnot : ¬StartsBefore 0 start stop step := fun h => absurd h.2.1 (lt_irrefl 0)
      apply iff_of_true _ hnot
      rw [sliceLen, if_neg hpos, onnxLength_zero]
      rw [max_quotient (by omega), quotient_of_nonpos (by omega) (by omega)]
    · have hn' : 0 < n := by omega
      rw [sliceLen_of_neg hn' hneg]
      by_cases hstart : 0 ≤ fromEnd n start
      · rw [if_pos hstart]
        apply iff_of_true rfl
        rintro ⟨-, -, hlow, -⟩
        rw [fromEnd] at hstart
        split at hstart <;> omega
      · have hs : onnxStart n start step = 0 := by
          rw [onnxStart, if_neg hpos]
          omega
        have hbefore : StartsBefore n start stop step ↔ fromEnd n stop < 0 := by
          rw [StartsBefore]
          simp only [fromEnd] at hstart ⊢
          split at hstart <;> split <;> omega
        have hlen : onnxLength n start stop step = 0 ↔ ¬fromEnd n stop < 0 := by
          rw [onnxLength_eq hn'.ne' hstep, hs, ← not_iff_not, not_not, ← ne_eq, ← Nat.pos_iff_ne_zero,
            lt_count_iff hstep, if_neg hpos, onnxEnd, if_neg hpos]
          simp only [Nat.cast_zero, zero_mul, add_zero]
          omega
        rw [if_neg hstart, hbefore, ← hlen]
        omega

theorem onnxLength_le_of_one (hn : 0 ≤ n) : (onnxLength n start stop 1 : Int) ≤ n := by
  have hs : 0 ≤ onnxStart n start 1 := by
    rw [onnxStart, if_pos one_pos]
    omega
  have he : onnxEnd n stop 1 ≤ n := (onnxEnd_range hn).2
  rw [length_eq_of_pos hn one_pos, span, if_pos one_pos, Int.ediv_one, neg_neg]
  omega

theorem sliceDim_sound {σ : String → Nat} {d : Dim} {limit : Int} {m : Nat} (hm : Denotes σ d m)
    (hstep : step ≠ 0) (hsafe : ¬StartsBefore m start stop step) :
    ∃ d', sliceDim d start stop step limit = .ok d' ∧ Denotes σ d' (onnxLength m start stop step) := by
  have hlen : sliceLen m start stop step = onnxLength m start stop step :=
    (sliceLen_iff (by omega) hstep).mpr hsafe
  rw [sliceDim]
  cases hhi : d.hi with
  | none =>
    apply denotes_newDim (by omega)
    simp
  | some hi =>
    have hle : m ≤ hi := hm.le_hi hi hhi
    dsimp only
    by_cases hwide : (hi : Int) - d.lo > limit
    · rw [if_pos hwide]
      apply denotes_newDim (by omega)
      intro h hh
      by_cases hone : step = 1
      · subst hone
        rw [if_pos rfl] at hh
        cases hh
        have hle : (onnxLength m start stop 1 : Int) ≤ m := onnxLength_le_of_one (by omega)
        omega
      · rw [if_neg hone] at hh
        cases hh
    · rw [if_neg hwide]
      have hmem : (onnxLength m start stop step : Int) ∈
          (List.range' d.lo (hi + 1 - d.lo)).map fun n : Nat => sliceLen n start stop step := by
        rw [← hlen]
        apply List.mem_map_of_mem
        have hlo := hm.lo_le
        exact mem_range'_1.mpr ⟨hlo, by omega⟩
      cases hmin : ((List.range' d.lo (hi + 1 - d.lo)).map fun n : Nat =>
          sliceLen n start stop step).min? with
      | none =>
        rw [min?_eq_none_iff] at hmin
        rw [hmin] at hmem
        cases hmem
      | some lo =>
        cases hmax : ((List.range' d.lo (hi + 1 - d.lo)).map fun n : Nat =>
            sliceLen n start stop step).max? with
        | none =>
          rw [max?_eq_none_iff] at hmax
          rw [hmax] at hmem
          cases hmem
        | some top =>
          apply denotes_newDim
          · exact (min?_eq_some_iff.mp hmin).2 _ hmem
          · intro h hh
            cases hh
            exact (max?_eq_some_iff.mp hmax).2 _ hmem

open Symbolic.Expr in
theorem slice_one (input : List SymExpr) (axis len start stop step : Int) (fresh : Nat)
    (haxis : 0 ≤ normalizeAxis axis input.length ∧ normalizeAxis axis input.length < input.length)
    (hlen : concrete (input.getD (normalizeAxis axis input.length).toNat .zero) = some len)
    (hstep : step ≠ 0) :
    slice input [start] [stop] (some [axis]) (some [step]) fresh =
      (sliceCount len start stop step).map fun c =>
        some (input.set (normalizeAxis axis input.length).toNat (.const c), fresh) := by
  have hin : ¬(normalizeAxis axis input.length < 0 ∨
      (input.length : Int) ≤ normalizeAxis axis input.length) := by omega
  simp only [slice, length_cons, length_nil, ne_eq, not_true_eq_false, if_false,
    any_some, lt_irrefl, decide_false, Bool.false_eq_true, zip_cons_cons, zip_nil_right,
    sliceFrom, getD_cons_zero, if_neg hin, hlen, bind_some, getElem?_cons_zero,
    getD_some, if_neg hstep]
  cases sliceCount len start stop step <;> rfl

open Symbolic.Expr in
theorem evalSlice_one (data : List SymExpr) (start stop step : Int) (hstep : step ≠ 0) :
    evalSlice (some ⟨false, data⟩) (some [start]) (some [stop]) none (some [step]) =
      (sliceElements data start stop step hstep).map fun xs => some ⟨false, xs⟩ := by
  simp [evalSlice, only, hstep]

/-- The three lengths are the one that ONNX gives. -/
structure Agree (data : List α) (start stop step : Int) (hstep : step ≠ 0) : Prop where
  shaping : sliceCount data.length start stop step = some (onnxLength data.length start stop step : Int)
  evaluated : (sliceElements data start stop step hstep).map List.length =
    some (onnxLength data.length start stop step)
  ranges : sliceLen data.length start stop step = onnxLength data.length start stop step

/-- Not backwards over an empty axis, no number out of range, and not from before the first element on. -/
structure Safe (n start stop step : Int) : Prop where
  direction : n = 0 → 0 < step
  sum : SumFits n start stop step
  index : IndexFits n start stop step
  start : ¬StartsBefore n start stop step

/-- From ten before the end of five elements backwards: ONNX takes the first element. -/
theorem slice_lengths_differ : ¬Agree [1, 2, 3, 4, 5] (-10) (-20) (-1) (by decide) := by
  intro h
  have hbefore : StartsBefore ([1, 2, 3, 4, 5] : List Nat).length (-10) (-20) (-1) := by
    simp [StartsBefore]
  exact (sliceLen_iff (by omega) (by decide)).mp h.ranges hbefore

theorem slice_lengths_agree_iff (data : List α) (start stop step : Int) (hdata : Fits data.length)
    (hstart : Fits start) (hstop : Fits stop) (hstep : step ≠ 0) (hstep' : Fits step) :
    Agree data start stop step hstep ↔ Safe data.length start stop step := by
  have hn : (0 : Int) ≤ data.length := by omega
  have hcount := sliceCount_iff hn hdata hstart hstop hstep
  have helements := sliceElements_iff data hdata hstart hstop hstep hstep'
  have hlen : sliceLen data.length start stop step = onnxLength data.length start stop step ↔
      ¬StartsBefore data.length start stop step := sliceLen_iff hn hstep
  constructor
  · intro h
    have hc := hcount.mp h.shaping
    exact ⟨hc.1, hc.2, (helements.mp h.evaluated).2, hlen.mp h.ranges⟩
  · intro h
    exact ⟨hcount.mpr ⟨h.direction, h.sum⟩, helements.mpr ⟨h.direction, h.index⟩, hlen.mpr h.start⟩

/-- Every other element of three, backwards. -/
theorem slice_lengths_agree_two :
    Agree [5, 6, 7] (-1) (-9) (-2) (by decide) ↔ Safe ([5, 6, 7] : List Nat).length (-1) (-9) (-2) :=
  slice_lengths_agree_iff [5, 6, 7] (-1) (-9) (-2) (by decide) (by decide) (by decide) (by decide)
    (by decide)

open ShapeRanges.Layout ShapeRanges.LayoutSound Lib.Results

/-- The axis of an entry exists and is one that `_slice_len` computes as ONNX does. -/
structure SliceEntry (dims : List Nat) (e : (Int × Int) × (Nat × Int)) : Prop where
  lt : e.2.1 < dims.length
  step_ne : e.2.2 ≠ 0
  start : ¬StartsBefore (dims.getD e.2.1 0) e.1.1 e.1.2 e.2.2

/-- The shape that ONNX gives a slice of `dims`, entry by entry from `out` on. -/
noncomputable def actualSlice (dims : List Nat) : List ((Int × Int) × (Nat × Int)) → List Nat → List Nat
  | [], out => out
  | ((start, stop), (ax, step)) :: rest, out =>
    actualSlice dims rest (out.set ax (onnxLength (dims.getD ax 0) start stop step))

variable {σ : String → Nat} {shape out : Shape} {dims outs : List Nat} {limit : Int}
  {entries : List ((Int × Int) × (Nat × Int))}

theorem sliceAxes_sound (hs : Contains σ shape dims) (hentries : ∀ e ∈ entries, SliceEntry dims e)
    (hout : Contains σ out outs) :
    ∃ s, sliceAxes shape limit entries out = .ok (some s) ∧ Contains σ s (actualSlice dims entries outs) := by
  induction entries generalizing out outs with
  | nil => exact ⟨out, rfl, hout⟩
  | cons e rest ih =>
    obtain ⟨⟨start, stop⟩, ax, step⟩ := e
    have he := hentries _ mem_cons_self
    have hlt : ax < shape.length := he.lt.trans_eq (List.Forall₂.length_eq hs).symm
    have hd : Denotes σ shape[ax] (dims.getD ax 0) := by
      rw [getElem_eq_getD (exact 0)]
      exact denotes_getD hs he.lt
    obtain ⟨d', hd', hdenotes⟩ := sliceDim_sound hd he.step_ne he.start
    rw [sliceAxes, getElem?_eq_getElem hlt]
    dsimp only
    rw [if_neg he.step_ne, ok_bind hd']
    exact ih (fun e' he' => hentries e' (mem_cons_of_mem _ he')) (forall₂_set hdenotes hout ax)

/-- The rule covers every execution. -/
theorem slice_sound (hs : Contains σ shape dims) (starts ends : List Int) (axes steps : Option (List Int)) {as : List Nat}
    (haxes : axes.elim (some (List.range starts.length)) (actualAxes · dims.length) = some as)
    (hzip : (starts.zip ends).zip (as.zip (steps.getD (replicate starts.length 1))) = entries)
    (hentries : ∀ e ∈ entries, SliceEntry dims e) :
    ∃ s, slice_ shape starts ends axes steps limit = .ok (some s) ∧ Contains σ s (actualSlice dims entries dims) := by
  subst hzip
  cases axes with
  | none =>
    cases haxes
    exact sliceAxes_sound hs hentries hs
  | some axes =>
    rw [slice_.eq_def]
    dsimp only
    rw [List.Forall₂.length_eq hs, ok_bind (normAxes_of_actual haxes)]
    exact sliceAxes_sound hs hentries hs

/-- Between four and twelve rows, every other one but the last. -/
theorem slice_sound_rows : ∃ s, slice_ [⟨4, some 12, none, by simp⟩] [0] [-1] none (some [2]) 4096 = .ok (some s) ∧
    Contains (fun _ => 7) s (actualSlice [7] [((0, -1), (0, 2))] [7]) := by
  have hrows : Denotes (fun _ => 7) ⟨4, some 12, none, by simp⟩ 7 := ⟨by decide, by simp, by simp⟩
  refine slice_sound (.cons hrows .nil) [0] [-1] none (some [2]) rfl rfl fun e he => ?_
  cases mem_singleton.mp he
  exact ⟨by decide, by decide, by simp [StartsBefore]⟩

end Onnxsim.Slicing.Agreement
