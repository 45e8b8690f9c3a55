import Onnxsim.Lib.Results
import Onnxsim.Reduce.Fusion
import Onnxsim.Slicing.Agreement

namespace Onnxsim.Passes.ShapeSlices

open List Option Lib.Progressions
open Reduce.Fusion (Dimension)
open Slicing.Agreement Slicing.Rules

/-- An addition of `int64_t`, which wraps around. -/
def wrap64 (x : Int) : Int := Int.bmod x (2 ^ 64)

inductive Outcome where
  | running
  | outOfBounds
  | declined
  | constant (dims : List Int)
deriving DecidableEq

def Outcome.prepend (d : Int) : Outcome → Outcome
  | .constant dims => .constant (d :: dims)
  | o => o

def read (dims : List Dimension) (i : Int) : Option Dimension := if 0 ≤ i then dims[i.toNat]? else none

/-- The two loops over the result of the Shape, which differ in the sign of the step. -/
def sliceLoop (dims : List Dimension) (stop step : Int) : Nat → Int → Outcome
  | 0, _ => .running
  | fuel + 1, i =>
    if Continues stop step i then
      match read dims i with
      | none => .outOfBounds
      | some (.size d) => (sliceLoop dims stop step fuel (wrap64 (i + step))).prepend d
      | some _ => .declined
    else .constant []

/-- The operands of a Slice that are constants; `steps` is the fifth input, if there is one. -/
structure SliceNode where
  opset : Int
  starts : Option (List (BitVec 64))
  ends : Option (List (BitVec 64))
  steps : Option (Option (List (BitVec 64)))

/-- The attributes of a Shape. -/
structure ShapeNode where
  start : Option Int
  stop : Option Int

def fetchSoleIntValue : Option (List (BitVec 64)) → Option Int
  | some [x] => some x.toInt
  | _ => none

def fetchStep (node : SliceNode) : Option Int :=
  match node.steps with
  | none => some 1
  | some operand => fetchSoleIntValue operand

def fetchSlice (node : SliceNode) : Option (Int × Int × Int) := do
  let start ← fetchSoleIntValue node.starts
  let stop ← fetchSoleIntValue node.ends
  if node.opset < 10 then some (start, stop, 1)
  else do
    let step ← fetchStep node
    if step = 0 then none else some (start, stop, step)

/-- The helpers of the optimizer library, which the source does not hold. -/
structure Helpers where
  addYIfNegative : Int → Int → Int
  fetchStartAndEndAttrOfShape : ShapeNode → Nat → Int × Int

/-- `fuel` bounds the iterations of the loop over the slice. -/
def eliminateSliceAfterShape (h : Helpers) (fuel : Nat) (shape : ShapeNode) (dims : List Dimension) (node : SliceNode) :
    Outcome :=
  let window := h.fetchStartAndEndAttrOfShape shape dims.length
  match (terms window.1 1 (window.2 - window.1).toNat).mapM (read dims) with
  | none => .outOfBounds
  | some result =>
    if result = [] then .declined
    else
      match fetchSlice node with
      | none => .declined
      | some (start, stop, step) =>
        let n : Int := result.length
        let start := h.addYIfNegative start n
        let stop := h.addYIfNegative stop n
        if 0 < step then sliceLoop result (max 0 (min stop n)) step fuel (max 0 (min start n))
        else sliceLoop result (max (-1) (min stop n)) step fuel (max 0 (min start (n - 1)))

/-- The part of a shape that ONNX's Shape gives, as bounds into it. -/
def shapeWindow (shape : ShapeNode) (rank : Nat) : Int × Int :=
  (max 0 (min (fromEnd rank (shape.start.getD 0)) rank), max 0 (min (fromEnd rank (shape.stop.getD rank)) rank))

/-- What the helpers are documented to do. -/
structure Helpers.Documented (h : Helpers) : Prop where
  add : ∀ a r, h.addYIfNegative a r = fromEnd r a
  window : ∀ shape rank, h.fetchStartAndEndAttrOfShape shape rank = shapeWindow shape rank

def window {α : Type} (l : List α) (w : Int × Int) : List α := (l.take w.2.toNat).drop w.1.toNat

def onnxSlice (l : List Int) (start stop step : Int) : List Int :=
  (terms (onnxStart l.length start step)
    step (count (onnxStart l.length start step) (onnxEnd l.length stop step) step)).map fun i => l.getD i.toNat 0

/-- The sizes of a tensor at run time agree with what is recorded of them. -/
def Recorded (d : Dimension) (actual : Int) : Prop := ∀ size, d = .size size → actual = size

/-- The pass ends, reads no entry that is not there, and a constant that it gives is the slice of the shape. -/
structure Correct (o : Outcome) (shape : ShapeNode) (dims : List Dimension) (node : SliceNode) : Prop where
  terminates : o ≠ .running
  inBounds : o ≠ .outOfBounds
  exact : ∀ ds, o = .constant ds → ∃ start stop step, fetchSlice node = some (start, stop, step) ∧
    ∀ actual, List.Forall₂ Recorded dims actual →
      ds = onnxSlice (window actual (shapeWindow shape dims.length)) start stop step

def known (dims : List Dimension) (i : Int) : Option Int :=
  (read dims i).bind fun
    | .size d => some d
    | _ => none

/-- The known values that a slice of recorded dimensions takes. -/
def taken (dims : List Dimension) (start stop step : Int) : Option (List Int) :=
  (terms (onnxStart dims.length start step)
    step (count (onnxStart dims.length start step) (onnxEnd dims.length stop step) step)).mapM (known dims)

/-- The index after the last one that is taken is one that `int64_t` holds. -/
def Stays (n start stop step : Int) : Prop :=
  count (onnxStart n start step) (onnxEnd n stop step) step = 0 ∨
    onnxStart n start step + count (onnxStart n start step) (onnxEnd n stop step) step * step < 2 ^ 63

instance (n start stop step : Int) : Decidable (Stays n start stop step) := inferInstanceAs (Decidable (_ ∨ _))

/-- A slice that takes known dimensions only, and whose index wraps around after the last one. -/
def Wraps (shape : ShapeNode) (dims : List Dimension) (node : SliceNode) : Prop :=
  ∃ start stop step, fetchSlice node = some (start, stop, step) ∧
    let result := window dims (shapeWindow shape dims.length)
    (taken result start stop step).isSome ∧ ¬ Stays result.length start stop step

section

variable {dims : List Dimension} {stop step i : Int}

theorem wrap64_of_fits {x : Int} (h : Fits x) : wrap64 x = x := by
  obtain ⟨hlo, hhi⟩ := h
  apply Int.bmod_eq_of_le <;> omega

theorem wrap64_neg {x : Int} (hlo : 2 ^ 63 ≤ x) (hhi : x < 2 ^ 64) : wrap64 x < 0 := by
  rw [wrap64, Int.bmod_def]
  split <;> omega

theorem read_of_range (h : 0 ≤ i ∧ i < dims.length) : ∃ d, read dims i = some d := by
  have hlt : i.toNat < dims.length := by omega
  refine ⟨dims[i.toNat], ?_⟩
  rw [read, if_pos h.1, getElem?_eq_getElem]

/-- The loop takes every term of the progression; an index that leaves the range of `int64_t` after the last one
comes back below zero, and is read. -/
theorem sliceLoop_eq (hdims : (dims.length : Int) < 2 ^ 63) (hstep : step ≠ 0) (hstep' : Fits step)
    (hstop : 0 < step → 0 ≤ stop) (c : Nat) :
    ∀ i fuel, count i stop step = c → (∀ k < c, 0 ≤ i + (k : Nat) * step ∧ i + (k : Nat) * step < dims.length) →
      c < fuel → sliceLoop dims stop step fuel i =
        match (terms i step c).mapM (known dims) with
        | none => .declined
        | some ds => if c = 0 ∨ Fits (i + c * step) then .constant ds else .outOfBounds := by
  induction c with
  | zero =>
    intro i fuel hcount _ hfuel
    obtain ⟨fuel, rfl⟩ := Nat.exists_eq_succ_of_ne_zero (by omega : fuel ≠ 0)
    have hend : ¬Continues stop step i := by
      rw [continues_iff hstep]
      omega
    rw [sliceLoop, if_neg hend]
    rfl
  | succ c ih =>
    intro i fuel hcount hrange hfuel
    obtain ⟨fuel, rfl⟩ := Nat.exists_eq_succ_of_ne_zero (by omega : fuel ≠ 0)
    have hgo : Continues stop step i := by
      rw [continues_iff hstep]
      omega
    have hcount' : count (i + step) stop step = c := by
      have := count_step hstep (s := i) (e := stop) (by omega)
      omega
    have hhere := hrange 0 (Nat.succ_pos c)
    simp only [Nat.cast_zero, zero_mul, add_zero] at hhere
    obtain ⟨d, hd⟩ := read_of_range hhere
    have hnext : i + step + c * step = i + (c + 1 : Nat) * step := by push_cast; ring
    rw [sliceLoop, if_pos hgo, terms_succ, mapM_cons, hd]
    cases d with
    | unknown => simp [known, hd]
    | param name => simp [known, hd]
    | size v =>
      have hknown : known dims i = some v := by simp [known, hd]
      rw [hknown]
      by_cases hfits : Fits (i + step)
      · have hrest := ih (i + step) fuel hcount' (by
          intro k hk
          have := hrange (k + 1) (by omega)
          have hk' : i + ((k + 1 : Nat) : Int) * step = i + step + k * step := by push_cast; ring
          rwa [hk'] at this) (by omega)
        rw [wrap64_of_fits hfits, hrest, hnext]
        cases (terms (i + step) step c).mapM (known dims) with
        | none => rfl
        | some ds =>
          by_cases hc : c = 0
          · subst hc
            simp only [Nat.zero_add, Nat.cast_one, one_mul, hfits]
            rfl
          · simp only [hc, false_or, Nat.succ_ne_zero]
            by_cases hlast : Fits (i + (c + 1 : Nat) * step)
            · simp only [hlast, if_true]
              rfl
            · simp only [hlast, if_false]
              rfl
      · have hlarge : 2 ^ 63 ≤ i + step ∧ 0 < step := by
          rw [Fits] at hfits hstep'
          omega
        have hc : c = 0 := by
          by_contra hc
          have hk := hrange 1 (by omega)
          simp only [Nat.cast_one, one_mul] at hk
          omega
        subst hc
        have hneg : wrap64 (i + step) < 0 := wrap64_neg hlarge.1 (by
          have := hstep'.2
          omega)
        have hback : Continues stop step (wrap64 (i + step)) := by
          rw [Continues, if_pos hlarge.2]
          have := hstop hlarge.2
          omega
        obtain ⟨fuel, rfl⟩ := Nat.exists_eq_succ_of_ne_zero (by omega : fuel ≠ 0)
        have hread : read dims (wrap64 (i + step)) = none := by rw [read, if_neg (by omega)]
        rw [sliceLoop, if_pos hback, hread]
        simp [terms_zero, hfits, Outcome.prepend]

end

section

theorem mapM_read (dims : List Dimension) (m : Nat) :
    ∀ a : Nat, a + m ≤ dims.length → (terms a 1 m).mapM (read dims) = some ((dims.drop a).take m) := by
  induction m with
  | zero =>
    intro a _
    rw [terms_zero, take_zero]
    rfl
  | succ m ih =>
    intro a ha
    have hlt : a < dims.length := by omega
    have hread : read dims a = some dims[a] := by
      rw [read, if_pos (Int.natCast_nonneg a), Int.toNat_natCast, getElem?_eq_getElem]
    have hrest := ih (a + 1) (by omega)
    push_cast at hrest
    rw [terms_succ, mapM_cons, hread, hrest, drop_eq_getElem_cons (by omega : a < dims.length),
      take_succ_cons]
    rfl

theorem read_window (shape : ShapeNode) (dims : List Dimension) :
    (terms (shapeWindow shape dims.length).1 1
        ((shapeWindow shape dims.length).2 - (shapeWindow shape dims.length).1).toNat).mapM (read dims) =
      some (window dims (shapeWindow shape dims.length)) := by
  have hs : 0 ≤ (shapeWindow shape dims.length).1 ∧ (shapeWindow shape dims.length).1 ≤ dims.length := by
    simp only [shapeWindow]
    omega
  have he : 0 ≤ (shapeWindow shape dims.length).2 ∧ (shapeWindow shape dims.length).2 ≤ dims.length := by
    simp only [shapeWindow]
    omega
  generalize shapeWindow shape dims.length = w at hs he ⊢
  obtain ⟨a, ha⟩ := Int.eq_ofNat_of_zero_le hs.1
  obtain ⟨e, he'⟩ := Int.eq_ofNat_of_zero_le he.1
  by_cases hle : a ≤ e
  · have hread := mapM_read dims (e - a) a (by omega)
    have hlen : (w.2 - w.1).toNat = e - a := by omega
    rw [ha] at hlen ⊢
    rw [hlen, hread, window, drop_take, he', ha]
    rfl
  · have hlen : (w.2 - w.1).toNat = 0 := by omega
    have hempty : window dims w = [] := by
      rw [window, drop_eq_nil_iff, length_take]
      omega
    rw [hlen, terms_zero, hempty]
    rfl

theorem fits_toInt (x : BitVec 64) : Fits x.toInt := by
  constructor
  · have := BitVec.le_toInt x
    omega
  · have := BitVec.toInt_lt (x := x)
    omega

theorem fits_of_fetchSole {operand : Option (List (BitVec 64))} {v : Int} (h : fetchSoleIntValue operand = some v) :
    Fits v := by
  unfold fetchSoleIntValue at h
  split at h
  · cases h
    exact fits_toInt _
  · cases h

theorem step_of_fetchSlice {node : SliceNode} {start stop step : Int}
    (h : fetchSlice node = some (start, stop, step)) : step ≠ 0 ∧ Fits step := by
  obtain ⟨s, hs, h⟩ := bind_eq_some_iff.mp h
  obtain ⟨e, he, h⟩ := bind_eq_some_iff.mp h
  split at h
  · cases h
    exact ⟨one_ne_zero, by decide⟩
  · obtain ⟨d, hd, h⟩ := bind_eq_some_iff.mp h
    split at h
    · cases h
    · next hne =>
      cases h
      refine ⟨hne, ?_⟩
      unfold fetchStep at hd
      split at hd
      · cases hd
        decide
      · exact fits_of_fetchSole hd

theorem count_clamped {n start stop step : Int} (hn : 0 < n) (hstep : ¬ 0 < step) (hne : step ≠ 0) :
    count (onnxStart n start step) (max (-1) (min (fromEnd n stop) n)) step =
      count (onnxStart n start step) (onnxEnd n stop step) step := by
  rw [onnxEnd, if_neg hstep]
  by_cases hlast : fromEnd n stop ≤ n - 1
  · congr 1
    omega
  · have hs : onnxStart n start step ≤ n - 1 := by
      rw [onnxStart, if_neg hstep]
      omega
    rw [(count_eq_zero_iff_of_neg (by omega)).mpr (by omega), (count_eq_zero_iff_of_neg (by omega)).mpr (by omega)]

theorem stays_zero (start stop step : Int) : Stays 0 start stop step := by
  have hs : onnxStart 0 start step = 0 := by
    rw [onnxStart]
    split <;> omega
  rw [Stays, hs]
  by_cases hpos : 0 < step
  · left
    apply (count_eq_zero_iff_of_pos hpos).mpr
    rw [onnxEnd, if_pos hpos]
    omega
  · right
    have hdown := Int.mul_nonpos_of_nonneg_of_nonpos
      (Int.natCast_nonneg (count 0 (onnxEnd 0 stop step) step)) (by omega : step ≤ 0)
    omega

theorem count_le (start stop : Int) {n step : Int} (hn : 0 < n) (hne : step ≠ 0) :
    (count (onnxStart n start step) (onnxEnd n stop step) step : Int) ≤ n := by
  by_cases hzero : count (onnxStart n start step) (onnxEnd n stop step) step = 0
  · omega
  · have hfirst := visited_range hn hne (Nat.pos_of_ne_zero hzero)
    have hlast := visited_range hn hne (Nat.sub_one_lt hzero)
    have hcast : ((count (onnxStart n start step) (onnxEnd n stop step) step - 1 : Nat) : Int) =
        count (onnxStart n start step) (onnxEnd n stop step) step - 1 := by omega
    rw [hcast] at hlast
    simp only [Nat.cast_zero, zero_mul, add_zero] at hfirst
    have hc : (0 : Int) ≤ (count (onnxStart n start step) (onnxEnd n stop step) step : Int) - 1 := by omega
    generalize (count (onnxStart n start step) (onnxEnd n stop step) step : Int) = c at hc hlast ⊢
    by_cases hpos : 0 < step
    · have hle := Int.mul_le_mul_of_nonneg_left (by omega : 1 ≤ step) hc
      omega
    · have hle := Int.mul_le_mul_of_nonneg_left (by omega : step ≤ -1) hc
      omega

end

variable {actual : List Int}

theorem known_of_recorded {dims : List Dimension} (h : List.Forall₂ Recorded dims actual) {i d : Int}
    (hd : known dims i = some d) : actual.getD i.toNat 0 = d := by
  obtain ⟨dim, hread, hsize⟩ := bind_eq_some_iff.mp hd
  rw [read] at hread
  split at hread
  · obtain ⟨hlt, hget⟩ := List.getElem?_eq_some_iff.mp hread
    have hlen := h.length_eq
    have hrec := h.get hlt (by omega : i.toNat < actual.length)
    rw [getD_eq_getElem?_getD, getElem?_eq_getElem (by omega), getD_some]
    cases dim with
    | unknown => cases hsize
    | param name => cases hsize
    | size v =>
      cases hsize
      exact hrec _ (by simpa using hget)
  · cases hread

theorem map_getD_of_known {dims : List Dimension} (h : List.Forall₂ Recorded dims actual) {is ds : List Int}
    (hds : is.mapM (known dims) = some ds) : is.map (fun i => actual.getD i.toNat 0) = ds := by
  have hall := Lib.Results.forall₂_of_mapM hds
  induction hall with
  | nil => rfl
  | cons hhead hrest ih =>
    rw [map_cons, known_of_recorded h hhead]
    congr 1
    apply ih
    clear ih hds hhead
    induction hrest with
    | nil => rfl
    | cons hhead _ ih =>
      rw [mapM_cons, hhead, ih]
      rfl

theorem Recorded.window {dims : List Dimension} (h : List.Forall₂ Recorded dims actual) (w : Int × Int) :
    List.Forall₂ Recorded (window dims w) (window actual w) :=
  forall₂_drop _ (forall₂_take _ h)

theorem length_window_le {α : Type} (l : List α) (w : Int × Int) : (window l w).length ≤ l.length := by
  rw [ShapeSlices.window, List.length_drop, length_take]
  omega

variable {h : Helpers} {shape : ShapeNode} {dims : List Dimension} {node : SliceNode} {fuel : Nat}

theorem Correct.declined : Correct .declined shape dims node :=
  ⟨by simp, by simp, by simp⟩

theorem eliminate_eq (hh : h.Documented) {start stop step : Int} (hfetch : fetchSlice node = some (start, stop, step))
    (hne : window dims (shapeWindow shape dims.length) ≠ []) (hrank : dims.length < 2 ^ 31) (hfuel : dims.length < fuel) :
    let result := window dims (shapeWindow shape dims.length)
    eliminateSliceAfterShape h fuel shape dims node =
      match taken result start stop step with
      | none => .declined
      | some ds => if Stays result.length start stop step then .constant ds else .outOfBounds := by
  intro result
  have hpos : 0 < (result.length : Int) := by
    have hp : 0 < result.length := length_pos_iff.mpr hne
    omega
  have hlen : result.length ≤ dims.length := length_window_le dims _
  obtain ⟨hstep, hstep'⟩ := step_of_fetchSlice hfetch
  have hcode : eliminateSliceAfterShape h fuel shape dims node =
      if 0 < step then sliceLoop result (max 0 (min (fromEnd result.length stop) result.length)) step fuel
          (max 0 (min (fromEnd result.length start) result.length))
        else sliceLoop result (max (-1) (min (fromEnd result.length stop) result.length)) step fuel
          (max 0 (min (fromEnd result.length start) (result.length - 1))) := by
    rw [eliminateSliceAfterShape, hh.window]
    rw [read_window]
    dsimp only
    rw [if_neg hne, hfetch]
    dsimp only
    rw [hh.add, hh.add]
  have hcount := count_le start stop hpos hstep
  have hrange : ∀ k < count (onnxStart result.length start step) (onnxEnd result.length stop step) step,
      0 ≤ onnxStart result.length start step + (k : Nat) * step ∧
        onnxStart result.length start step + (k : Nat) * step < result.length := fun k hk => visited_range hpos hstep hk
  have hloop : ∀ e, (0 < step → 0 ≤ e) →
      count (onnxStart result.length start step) e step =
        count (onnxStart result.length start step) (onnxEnd result.length stop step) step →
      sliceLoop result e step fuel (onnxStart result.length start step) =
        match taken result start stop step with
        | none => .declined
        | some ds => if Stays result.length start stop step then .constant ds else .outOfBounds := by
    intro e he hsame
    rw [sliceLoop_eq (by omega) hstep hstep' he _ _ fuel hsame hrange (by omega), taken]
    cases (terms (onnxStart result.length start step) step
        (count (onnxStart result.length start step) (onnxEnd result.length stop step) step)).mapM (known result) with
    | none => rfl
    | some ds =>
      have hiff : (count (onnxStart result.length start step) (onnxEnd result.length stop step) step = 0 ∨
          Fits (onnxStart result.length start step +
            count (onnxStart result.length start step) (onnxEnd result.length stop step) step * step)) ↔
          Stays result.length start stop step := by
        rw [Stays]
        by_cases hc : count (onnxStart result.length start step) (onnxEnd result.length stop step) step = 0
        · simp [hc]
        · rw [fits_last hpos hstep hstep' rfl (Nat.pos_of_ne_zero hc)]
      dsimp only
      by_cases hfits : Stays result.length start stop step
      · rw [if_pos hfits, if_pos (hiff.mpr hfits)]
      · rw [if_neg hfits, if_neg (mt hiff.mp hfits)]
  rw [hcode]
  by_cases hdir : 0 < step
  · have hstart : max 0 (min (fromEnd result.length start) result.length) = onnxStart result.length start step := by
      rw [onnxStart, if_pos hdir]
    have hstop : max 0 (min (fromEnd result.length stop) result.length) = onnxEnd result.length stop step := by
      rw [onnxEnd, if_pos hdir]
    rw [if_pos hdir, hstart, hstop]
    apply hloop _ _ rfl
    intro _
    rw [← hstop]
    omega
  · have hstart : max 0 (min (fromEnd result.length start) ((result.length : Int) - 1)) =
        onnxStart result.length start step := by
      rw [onnxStart, if_neg hdir]
    rw [if_neg hdir, hstart]
    exact hloop _ (fun hpos' => absurd hpos' hdir) (count_clamped hpos hdir hstep)

def documentedHelpers : Helpers := ⟨fun a r => fromEnd r a, shapeWindow⟩

theorem documentedHelpers_documented : documentedHelpers.Documented := ⟨fun _ _ => rfl, fun _ _ => rfl⟩

/-- From the second of two known dimensions with the largest step. -/
def leapingSlice : SliceNode := ⟨13, some [1#64], some [2#64], some (some [BitVec.ofInt 64 (2 ^ 63 - 1)])⟩

theorem eliminateSliceAfterShape_leaping : eliminateSliceAfterShape documentedHelpers 3 ⟨none, none⟩ [.size 4, .size 5]
    leapingSlice = .outOfBounds := by decide

end Onnxsim.Passes.ShapeSlices
