import Mathlib.Algebra.Order.Field.Basic
import Mathlib.Data.List.Induction
import Onnxsim.Lib.Results
import Onnxsim.ShapeRanges.Broadcasting

namespace Onnxsim.ShapeRanges.Layout

open Lib.Results Dims

variable {α β : Type}

/-- The entries whose index satisfies `p`, the first entry having index `i`. -/
def select (p : Nat → Bool) (i : Nat) : List α → List α
  | [] => []
  | x :: xs => if p i then x :: select p (i + 1) xs else select p (i + 1) xs

/-- Replace the entries whose index satisfies `p`. -/
def replace (p : Nat → Bool) (v : α) (i : Nat) : List α → List α
  | [] => []
  | x :: xs => (if p i then v else x) :: replace p v (i + 1) xs

variable {R : α → β → Prop} {as : List α} {bs : List β} {v : α} {w : β}

theorem forall₂_select (p : Nat → Bool) (h : List.Forall₂ R as bs) (i : Nat) :
    List.Forall₂ R (select p i as) (select p i bs) := by
  induction h generalizing i with
  | nil => exact .nil
  | cons hfirst _ ih =>
    rw [select, select]
    split
    · exact .cons hfirst (ih (i + 1))
    · exact ih (i + 1)

theorem forall₂_replace (p : Nat → Bool) (hv : R v w) (h : List.Forall₂ R as bs) (i : Nat) :
    List.Forall₂ R (replace p v i as) (replace p w i bs) := by
  induction h generalizing i with
  | nil => exact .nil
  | cons hfirst _ ih =>
    refine .cons ?_ (ih (i + 1))
    split
    · exact hv
    · exact hfirst

theorem forall₂_set (hv : R v w) (h : List.Forall₂ R as bs) (i : Nat) : List.Forall₂ R (as.set i v) (bs.set i w) := by
  induction h generalizing i with
  | nil => exact .nil
  | cons hfirst hrest ih =>
    cases i with
    | zero => exact .cons hv hrest
    | succ i => exact .cons hfirst (ih i)

def normAxis (axis : Int) (rank : Nat) : Except RuleError Nat :=
  let a := if axis < 0 then axis + rank else axis
  if 0 ≤ a ∧ a < rank then .ok a.toNat else .error (.axisRange axis rank)

/-- The dimension that an axis names, counted from the end where it is negative. -/
def actualAxis (axis : Int) (rank : Nat) : Option Nat :=
  if 0 ≤ axis ∧ axis < rank then some axis.toNat
  else if -rank ≤ axis ∧ axis < 0 then some (rank + axis).toNat
  else none

variable {rank a : Nat} {axis : Int}

theorem normAxis_of_actual (h : actualAxis axis rank = some a) : normAxis axis rank = .ok a := by
  rw [actualAxis] at h
  rw [normAxis]
  split at h
  · next hpos =>
    cases h
    rw [if_neg (not_lt.mpr hpos.1), if_pos hpos]
  · split at h
    · next hneg =>
      cases h
      rw [if_pos hneg.2, if_pos ⟨by omega, by omega⟩, Int.add_comm]
    · cases h

theorem actualAxis_lt (h : actualAxis axis rank = some a) : a < rank := by
  rw [actualAxis] at h
  split at h
  · cases h
    omega
  · split at h
    · cases h
      omega
    · cases h

def normAxes (axes : List Int) (rank : Nat) : Except RuleError (List Nat) := axes.mapM (normAxis · rank)

def actualAxes (axes : List Int) (rank : Nat) : Option (List Nat) := axes.mapM (actualAxis · rank)

theorem normAxes_of_actual {axes : List Int} {as : List Nat} (h : actualAxes axes rank = some as) :
    normAxes axes rank = .ok as := by
  induction axes generalizing as with
  | nil =>
    cases h
    rfl
  | cons axis axes ih =>
    rw [actualAxes, List.mapM_cons] at h
    obtain ⟨a, ha, h⟩ := Option.bind_eq_some_iff.mp h
    obtain ⟨rest, hrest, h⟩ := Option.bind_eq_some_iff.mp h
    cases h
    rw [normAxes, List.mapM_cons, ok_bind (normAxis_of_actual ha)]
    exact ok_bind (ih hrest) _

def concatDim (first : Shape) (rest : List Shape) (ax i : Nat) : Option Dim :=
  if i = ax then some ((first :: rest).foldl (fun tot s => tot.add (s.getD i (exact 0))) (exact 0))
  else rest.foldl (fun d s => d.bind fun d => intersect d (s.getD i (exact 0))) (some (first.getD i (exact 0)))

def concat (shapes : List Shape) (axis : Int) : Except RuleError (Option Shape) :=
  match shapes with
  | [] => .error .index
  | first :: rest =>
    if rest.any fun s => s.length ≠ first.length then .ok none
    else do
      let ax ← normAxis axis first.length
      .ok ((List.range first.length).mapM (concatDim first rest ax))

def gather (data indices : Shape) (axis : Int) : Except RuleError Shape := do
  let ax ← normAxis axis data.length
  .ok (data.take ax ++ indices ++ data.drop (ax + 1))

def gatherNd (data indices : Shape) (batchDims : Int) : Option Shape :=
  match indices.getLast? with
  | none => none
  | some last =>
    if batchDims ≠ 0 ∨ !last.isExact then none
    else if data.length < last.lo then none
    else some (indices.dropLast ++ data.drop last.lo)

def squeeze (shape : Shape) (axes : Option (List Int)) : Except RuleError (Option Shape) :=
  match axes with
  | none =>
    if shape.any fun d => d.contains 1 && !d.isExact then .ok none
    else .ok (some (shape.filter fun d => !(d.isExact && d.lo = 1)))
  | some axes => do
    let drop ← normAxes axes shape.length
    .ok (some (select (fun i => i ∉ drop) 0 shape))

/-- The output of `Unsqueeze` from index `i` on. -/
def unsqueezeLoop (ax : List Nat) (i : Nat) : Nat → Shape → Except RuleError Shape
  | 0, _ => .ok []
  | n + 1, shape =>
    if i ∈ ax then do .ok (exact 1 :: (← unsqueezeLoop ax (i + 1) n shape))
    else
      match shape with
      | [] => .error .stop
      | d :: rest => do .ok (d :: (← unsqueezeLoop ax (i + 1) n rest))

def unsqueeze (shape : Shape) (axes : List Int) : Except RuleError Shape := do
  let ax ← normAxes axes (shape.length + axes.length)
  unsqueezeLoop ax 0 (shape.length + axes.length) shape

/-- Indexing as the language does it, from the end for a negative index. -/
def dimAt (shape : Shape) (i : Int) : Except RuleError Dim :=
  match shape[(if i < 0 then i + shape.length else i).toNat]? with
  | some d => if -(shape.length : Int) ≤ i then .ok d else .error .index
  | none => .error .index

def transpose (shape : Shape) (perm : Option (List Int)) : Except RuleError Shape :=
  match perm with
  | some (i :: is) => (i :: is).mapM (dimAt shape)
  | _ => .ok shape.reverse

/-- `shape[:ax]` and `shape[ax:]`. -/
def splitAt (shape : Shape) (ax : Int) : Shape × Shape :=
  let k := (if ax < 0 then ax + shape.length else ax).toNat
  (shape.take k, shape.drop k)

def flatten (shape : Shape) (axis : Int) : Shape :=
  let parts := splitAt shape (if axis < 0 then axis + shape.length else axis)
  [numel parts.1, numel parts.2]

def tile (shape repeats : Shape) : Option Shape :=
  if repeats.length ≠ shape.length then none else some (List.zipWith Dim.mul shape repeats)

def reducedAxes (shape : Shape) (axes : Option (List Int)) : Except RuleError (List Nat) :=
  match axes with
  | none => .ok (List.range shape.length)
  | some axes => normAxes axes shape.length

def reduce (shape : Shape) (axes : Option (List Int)) (keepdims : Bool) : Except RuleError Shape := do
  let red ← reducedAxes shape axes
  if keepdims then .ok (replace (fun i => i ∈ red) (exact 1) 0 shape)
  else .ok (select (fun i => i ∉ red) 0 shape)

def reducedCount (shape : Shape) (axes : Option (List Int)) : Except RuleError Dim := do
  let red ← reducedAxes shape axes
  .ok (numel (select (fun i => i ∈ red) 0 shape))

/-- Shapes of one rank that agree outside the axis; their lengths along it add up. -/
def actualConcat : List (List Nat) → Int → Option (List Nat)
  | [], _ => none
  | first :: rest, axis => do
    let ax ← actualAxis axis first.length
    if rest.all fun s => s.length = first.length && s.eraseIdx ax = first.eraseIdx ax then
      some (first.set ax ((first :: rest).map fun s => s.getD ax 0).sum)
    else none

/-- The dimension of the axis gives way to those of the indices. -/
def actualGather (data indices : List Nat) (axis : Int) : Option (List Nat) := do
  let ax ← actualAxis axis data.length
  some (data.take ax ++ indices ++ data.drop (ax + 1))

/-- Each row of the last dimension of the indices, below the batch dimensions they share with the data,
names a slice of the data. -/
def actualGatherNd (data indices : List Nat) (batchDims : Nat) : Option (List Nat) := do
  let k ← indices.getLast?
  if 1 ≤ k ∧ batchDims + k ≤ data.length ∧ batchDims < indices.length ∧
      data.take batchDims = indices.take batchDims then
    some (indices.dropLast ++ data.drop (batchDims + k))
  else none

/-- Without axes every dimension of one goes; given axes must be dimensions of one. -/
def actualSqueeze (dims : List Nat) (axes : Option (List Int)) : Option (List Nat) :=
  match axes with
  | none => some (dims.filter fun n => n ≠ 1)
  | some axes => do
    let drop ← actualAxes axes dims.length
    if (select (fun i => i ∈ drop) 0 dims).all fun n => n = 1 then
      some (select (fun i => i ∉ drop) 0 dims)
    else none

/-- The output has a one at each axis, the axes being distinct, and is the input elsewhere. -/
structure IsUnsqueeze (dims : List Nat) (axes : List Int) (out : List Nat) : Prop where
  rank : out.length = dims.length + axes.length
  placed : ∃ ax, actualAxes axes out.length = some ax ∧ ax.Nodup ∧
    (∀ n ∈ select (fun i => i ∈ ax) 0 out, n = 1) ∧ select (fun i => i ∉ ax) 0 out = dims

/-- The dimensions in the order of a permutation, or in reverse without one. -/
def actualTranspose (dims : List Nat) (perm : Option (List Int)) : Option (List Nat) :=
  match perm with
  | none => some dims.reverse
  | some perm =>
    if perm.length = dims.length ∧ perm.Nodup ∧ ∀ i ∈ perm, 0 ≤ i ∧ i < dims.length then
      some (perm.map fun i => dims.getD i.toNat 0)
    else none

/-- The dimensions before the axis as one, and those from it on as one; the axis may be the rank. -/
def actualFlatten (dims : List Nat) (axis : Int) : Option (List Nat) :=
  if 0 ≤ axis ∧ axis ≤ dims.length then
    some [(dims.take axis.toNat).prod, (dims.drop axis.toNat).prod]
  else if -dims.length ≤ axis ∧ axis < 0 then
    some [(dims.take (dims.length + axis).toNat).prod, (dims.drop (dims.length + axis).toNat).prod]
  else none

def actualTile (dims repeats : List Nat) : Option (List Nat) :=
  if repeats.length = dims.length then some (List.zipWith (fun n r => n * r) dims repeats) else none

def actualReducedAxes (rank : Nat) (axes : Option (List Int)) : Option (List Nat) :=
  match axes with
  | none => some (List.range rank)
  | some axes => actualAxes axes rank

def actualReduce (dims : List Nat) (axes : Option (List Int)) (keepdims : Bool) : Option (List Nat) := do
  let red ← actualReducedAxes dims.length axes
  some (if keepdims then replace (fun i => i ∈ red) 1 0 dims else select (fun i => i ∉ red) 0 dims)

/-- The number of elements that meet in one element of the output of a reduction. -/
def actualReducedCount (dims : List Nat) (axes : Option (List Int)) : Option Nat := do
  let red ← actualReducedAxes dims.length axes
  some (select (fun i => i ∈ red) 0 dims).prod

end Onnxsim.ShapeRanges.Layout

namespace Onnxsim.ShapeRanges.LayoutSound

open List Option Lib.Results Dims Layout

variable {σ : String → Nat} {xs ys out : List Nat} {i n : Nat} {s : Shape} {d : Dim} {axis : Int}

theorem contains_mapM_range {f : Nat → Option Dim} {zs : List Nat}
    (h : ∀ i, ∀ hi : i < zs.length, ∃ d, f i = some d ∧ Denotes σ d (zs.get ⟨i, hi⟩)) :
    ∃ s, (List.range zs.length).mapM f = some s ∧ Contains σ s zs := by
  induction zs using List.reverseRecOn with
  | nil => exact ⟨[], rfl, .nil⟩
  | append_singleton zs z ih =>
    have hinit : ∀ i, ∀ hi : i < zs.length, ∃ d, f i = some d ∧ Denotes σ d (zs.get ⟨i, hi⟩) := by
      intro i hi
      obtain ⟨d, hd, hdz⟩ := h i (by simp; omega)
      refine ⟨d, hd, ?_⟩
      simpa [getElem_append_left hi] using hdz
    obtain ⟨s, hs, hsz⟩ := ih hinit
    obtain ⟨d, hd, hdz⟩ := h zs.length (by simp)
    refine ⟨s ++ [d], ?_, rel_append hsz (.cons (by simpa using hdz) .nil)⟩
    rw [length_append, length_singleton, range_succ, mapM_append, hs]
    simp [hd]

theorem denotes_getD (h : Contains σ s xs) (hi : i < xs.length) : Denotes σ (s.getD i (exact 0)) (xs.getD i 0) := by
  induction h generalizing i with
  | nil => exact absurd hi (Nat.not_lt_zero i)
  | cons hfirst _ ih =>
    cases i with
    | zero => exact hfirst
    | succ i => exact ih (Nat.lt_of_succ_lt_succ hi)

variable {actual : List (List Nat)} {shapes rest : List Shape} {first : Shape} {ax : Nat}

theorem denotes_foldl_add (h : List.Forall₂ (Contains σ) shapes actual) (hi : ∀ xs ∈ actual, i < xs.length)
    (hd : Denotes σ d n) :
    Denotes σ (shapes.foldl (fun tot s => tot.add (s.getD i (exact 0))) d)
      (n + (actual.map fun xs => xs.getD i 0).sum) := by
  induction h generalizing d n with
  | nil => simpa using hd
  | cons hfirst _ ih =>
    rw [foldl_cons, map_cons, sum_cons, ← Nat.add_assoc]
    apply ih (fun xs hxs => hi xs (mem_cons_of_mem _ hxs))
    exact hd.add (denotes_getD hfirst (hi _ mem_cons_self))

theorem denotes_foldl_intersect (h : List.Forall₂ (Contains σ) shapes actual)
    (hi : ∀ xs ∈ actual, i < xs.length ∧ xs.getD i 0 = n) (hd : Denotes σ d n) :
    ∃ e, shapes.foldl (fun d s => d.bind fun d => intersect d (s.getD i (exact 0))) (some d) = some e ∧
      Denotes σ e n := by
  induction h generalizing d with
  | nil => exact ⟨d, rfl, hd⟩
  | cons hfirst _ ih =>
    obtain ⟨hlt, heq⟩ := hi _ mem_cons_self
    have hother := denotes_getD hfirst hlt
    rw [heq] at hother
    obtain ⟨e, he, hen⟩ := hd.intersect hother
    rw [foldl_cons, bind_some, he]
    exact ih (fun xs hxs => hi xs (mem_cons_of_mem _ hxs)) hen

theorem getD_eq_of_eraseIdx {a : Nat} (hne : i ≠ a) (h : xs.eraseIdx a = ys.eraseIdx a) : xs.getD i 0 = ys.getD i 0 := by
  have hget (l : List Nat) : l.getD i 0 = (l.eraseIdx a).getD (if i < a then i else i - 1) 0 := by
    rw [getD_eq_getElem?_getD, getD_eq_getElem?_getD]
    by_cases hlt : i < a
    · rw [if_pos hlt, getElem?_eraseIdx_of_lt hlt]
    · have hpos : a < i := by omega
      rw [if_neg hlt, getElem?_eraseIdx_of_ge (by omega), Nat.sub_add_cancel (by omega)]
  rw [hget xs, hget ys, h]

theorem exists_actual (h : List.Forall₂ (Contains σ) shapes actual) (hs : s ∈ shapes) :
    ∃ ys ∈ actual, Contains σ s ys := by
  induction h with
  | nil => cases hs
  | cons hfirst _ ih =>
    rcases mem_cons.mp hs with rfl | hs
    · exact ⟨_, mem_cons_self, hfirst⟩
    · obtain ⟨ys, hys, hsy⟩ := ih hs
      exact ⟨ys, mem_cons_of_mem _ hys, hsy⟩

/-- What a valid concatenation promises of the shapes after the first. -/
structure Aligned (ax : Nat) (xs : List Nat) (actual : List (List Nat)) : Prop where
  rank : ∀ ys ∈ actual, ys.length = xs.length
  rest : ∀ ys ∈ actual, ys.eraseIdx ax = xs.eraseIdx ax

theorem concatDim_axis (hfirst : Contains σ first xs) (hrest : List.Forall₂ (Contains σ) rest actual)
    (hal : Aligned ax xs actual) (hax : ax < xs.length) :
    ∃ d, concatDim first rest ax ax = some d ∧
      Denotes σ d ((xs :: actual).map fun s => s.getD ax 0).sum := by
  have hall : List.Forall₂ (Contains σ) (first :: rest) (xs :: actual) := .cons hfirst hrest
  have hlt : ∀ ys ∈ xs :: actual, ax < ys.length := by
    intro ys hys
    rcases mem_cons.mp hys with rfl | hys
    · exact hax
    · rw [hal.rank ys hys]
      exact hax
  have hsum := denotes_foldl_add hall hlt (denotes_exact 0)
  rw [Nat.zero_add] at hsum
  exact ⟨_, if_pos rfl, hsum⟩

theorem concatDim_other (hfirst : Contains σ first xs) (hrest : List.Forall₂ (Contains σ) rest actual)
    (hal : Aligned ax xs actual) (hi : i < xs.length) (hne : i ≠ ax) :
    ∃ d, concatDim first rest ax i = some d ∧ Denotes σ d (xs.getD i 0) := by
  have hother : ∀ ys ∈ actual, i < ys.length ∧ ys.getD i 0 = xs.getD i 0 := by
    intro ys hys
    exact ⟨hal.rank ys hys ▸ hi, getD_eq_of_eraseIdx hne (hal.rest ys hys)⟩
  rw [concatDim, if_neg hne]
  exact denotes_foldl_intersect hrest hother (denotes_getD hfirst hi)

theorem concat_sound (hs : List.Forall₂ (Contains σ) shapes actual) (h : actualConcat actual axis = some out) :
    ∃ s, concat shapes axis = .ok (some s) ∧ Contains σ s out := by
  cases hs with
  | nil => cases h
  | @cons first xs rest actual hfirst hrest =>
    rw [actualConcat] at h
    obtain ⟨ax, hax, h⟩ := bind_eq_some_iff.mp h
    split at h
    · next hall =>
      cases h
      have heach : ∀ ys ∈ actual, ys.length = xs.length ∧ ys.eraseIdx ax = xs.eraseIdx ax := by
        intro ys hys
        simpa using List.all_eq_true.mp hall ys hys
      have hal : Aligned ax xs actual := ⟨fun ys hys => (heach ys hys).1, fun ys hys => (heach ys hys).2⟩
      have hlen : first.length = xs.length := List.Forall₂.length_eq hfirst
      have hranks : (rest.any fun s => s.length ≠ first.length) = false := by
        rw [List.any_eq_false]
        intro s hs
        obtain ⟨ys, hys, hsy⟩ := exists_actual hrest hs
        simpa [hlen, List.Forall₂.length_eq hsy] using hal.rank ys hys
      let out := xs.set ax ((xs :: actual).map fun s => s.getD ax 0).sum
      have hout : out.length = xs.length := length_set
      have hbuilt : ∃ s, (List.range out.length).mapM (concatDim first rest ax) = some s ∧
          Contains σ s out := by
        apply contains_mapM_range
        intro i hi
        rw [hout] at hi
        by_cases hia : i = ax
        · have haxis := concatDim_axis hfirst hrest hal (hia ▸ hi)
          simpa [out, hia] using haxis
        · have hother := concatDim_other hfirst hrest hal hi hia
          simpa [out, Ne.symm hia, hi] using hother
      obtain ⟨s, hsome, hs⟩ := hbuilt
      refine ⟨s, ?_, hs⟩
      rw [hout] at hsome
      rw [Layout.concat, hranks, if_neg Bool.false_ne_true, hlen, ok_bind (normAxis_of_actual hax), hsome]
    · cases h

variable {indices data shape : Shape} {is dims : List Nat} {axes : Option (List Int)}

theorem gather_sound (hd : Contains σ data xs) (hi : Contains σ indices is) (h : actualGather xs is axis = some out) :
    ∃ s, gather data indices axis = .ok s ∧ Contains σ s out := by
  obtain ⟨ax, hax, h⟩ := bind_eq_some_iff.mp h
  cases h
  refine ⟨_, ?_, rel_append (rel_append (forall₂_take ax hd) hi)
    (forall₂_drop (ax + 1) hd)⟩
  rw [gather, List.Forall₂.length_eq hd, ok_bind (normAxis_of_actual hax)]

theorem contains_getLast (h : Contains σ s xs) (hd : s.getLast? = some d) : ∃ k, xs.getLast? = some k ∧ Denotes σ d k := by
  have hrev := rel_reverse h
  rw [← head?_reverse] at hd ⊢
  cases hs : s.reverse with
  | nil => simp [hs] at hd
  | cons e s' =>
    rw [hs] at hrev hd
    cases hd
    cases hx : xs.reverse with
    | nil =>
      rw [hx] at hrev
      cases hrev
    | cons k xs' =>
      rw [hx] at hrev
      cases hrev with
      | cons hfirst _ => exact ⟨k, rfl, hfirst⟩

theorem contains_dropLast (h : Contains σ s xs) : Contains σ s.dropLast xs.dropLast := by
  rw [dropLast_eq_take, dropLast_eq_take, List.Forall₂.length_eq h]
  exact forall₂_take _ h

theorem gatherNd_sound (hd : Contains σ data xs) (hi : Contains σ indices is) {batchDims : Nat}
    (h : actualGatherNd xs is batchDims = some out) :
    ∀ s ∈ gatherNd data indices batchDims, Contains σ s out := by
  intro s hs
  rw [gatherNd] at hs
  cases hlast : indices.getLast? with
  | none =>
    rw [hlast] at hs
    cases hs
  | some last =>
    rw [hlast] at hs
    obtain ⟨k, hk, hlk⟩ := contains_getLast hi hlast
    dsimp only at hs
    split at hs
    · cases hs
    · next hexact =>
      rw [not_or, not_not] at hexact
      have hlo : k = last.lo := hlk.eq_of_exact (by simpa using hexact.2)
      have hbatch : batchDims = 0 := by simpa using hexact.1
      split at hs
      · cases hs
      · cases hs
        rw [actualGatherNd, hk] at h
        change (if _ then _ else _) = _ at h
        split at h
        · cases h
          rw [hbatch, Nat.zero_add, hlo]
          exact rel_append (contains_dropLast hi) (forall₂_drop last.lo hd)
        · cases h

theorem contains_filter_ones (h : Contains σ s xs) (hknown : ∀ d ∈ s, d.contains 1 = true → d.isExact = true) :
    Contains σ (s.filter fun d => !(d.isExact && d.lo = 1)) (xs.filter fun n => n ≠ 1) := by
  induction h with
  | nil => exact .nil
  | @cons d n s xs hfirst _ ih =>
    obtain ⟨hd, hrest⟩ := forall_mem_cons.mp hknown
    by_cases hn : n = 1
    · subst hn
      have hex := hd hfirst.contains
      have hlo := hfirst.eq_of_exact hex
      rw [filter_cons_of_neg (by simp [hex, ← hlo]), filter_cons_of_neg (by simp)]
      exact ih hrest
    · have hkeep : (!(d.isExact && d.lo = 1)) = true := by
        cases hex : d.isExact with
        | false => rfl
        | true => simpa [← hfirst.eq_of_exact hex] using hn
      rw [filter_cons_of_pos (by exact hkeep), filter_cons_of_pos (by simpa using hn)]
      exact .cons hfirst (ih hrest)

theorem squeeze_sound (hs : Contains σ shape dims) (h : actualSqueeze dims axes = some out) :
    ∃ r, squeeze shape axes = .ok r ∧ ∀ s ∈ r, Contains σ s out := by
  cases axes with
  | none =>
    cases h
    rw [squeeze]
    split
    · exact ⟨none, rfl, by simp⟩
    · next hany =>
      refine ⟨_, rfl, ?_⟩
      intro s hs'
      cases hs'
      apply contains_filter_ones hs
      intro d hd hone
      by_contra hex
      exact hany (List.any_eq_true.mpr ⟨d, hd, by simp [hone, hex]⟩)
  | some axes =>
    obtain ⟨drop, hdrop, h⟩ := bind_eq_some_iff.mp h
    split at h
    · cases h
      refine ⟨some (select (fun i => i ∉ drop) 0 shape), ?_, ?_⟩
      · rw [squeeze, List.Forall₂.length_eq hs, ok_bind (normAxes_of_actual hdrop)]
      · intro s hs'
        cases hs'
        exact forall₂_select _ hs 0
    · cases h

theorem unsqueezeLoop_sound {ax : List Nat} (hones : ∀ n ∈ select (fun i => i ∈ ax) i out, n = 1)
    (h : Contains σ shape (select (fun i => i ∉ ax) i out)) :
    ∃ s, unsqueezeLoop ax i out.length shape = .ok s ∧ Contains σ s out := by
  induction out generalizing i shape with
  | nil => exact ⟨[], rfl, .nil⟩
  | cons n out ih =>
    rw [length_cons, unsqueezeLoop.eq_def]
    dsimp only
    rw [select] at hones h
    by_cases hi : i ∈ ax
    · rw [if_pos (by simpa using hi)] at hones
      rw [if_neg (by simpa using hi)] at h
      obtain ⟨hn, hrest⟩ := forall_mem_cons.mp hones
      obtain ⟨s, hs, hso⟩ := ih hrest h
      rw [if_pos hi, hs, hn]
      exact ⟨exact 1 :: s, rfl, .cons (denotes_exact 1) hso⟩
    · rw [if_neg (by simpa using hi)] at hones
      rw [if_pos (by simpa using hi)] at h
      cases h with
      | @cons d _ rest _ hfirst hrest =>
        obtain ⟨s, hs, hso⟩ := ih hones hrest
        rw [if_neg hi]
        dsimp only
        rw [hs]
        exact ⟨d :: s, rfl, .cons hfirst hso⟩

variable (hs : Contains σ shape dims)

include hs

theorem unsqueeze_sound {axes : List Int} (h : IsUnsqueeze dims axes out) :
    ∃ s, unsqueeze shape axes = .ok s ∧ Contains σ s out := by
  obtain ⟨ax, hax, -, hones, hrest⟩ := h.placed
  obtain ⟨s, hloop, hso⟩ := unsqueezeLoop_sound hones (hrest ▸ hs)
  refine ⟨s, ?_, hso⟩
  rw [unsqueeze, List.Forall₂.length_eq hs, ← h.rank, ok_bind (normAxes_of_actual hax)]
  exact hloop

theorem dimAt_sound {i : Int} (hpos : 0 ≤ i) (hlt : i < dims.length) :
    ∃ d, dimAt shape i = .ok d ∧ Denotes σ d (dims.getD i.toNat 0) := by
  have hlen : shape.length = dims.length := List.Forall₂.length_eq hs
  have hi : i.toNat < shape.length := by omega
  refine ⟨shape[i.toNat], ?_, ?_⟩
  · rw [dimAt, if_neg (not_lt.mpr hpos), getElem?_eq_getElem hi]
    exact if_pos (by omega)
  · have hget := denotes_getD hs (hlen ▸ hi)
    rw [getD_eq_getElem?_getD, getElem?_eq_getElem hi, getD_some] at hget
    exact hget

theorem mapM_dimAt_sound {perm : List Int} (h : ∀ i ∈ perm, 0 ≤ i ∧ i < dims.length) :
    ∃ s, perm.mapM (dimAt shape) = .ok s ∧ Contains σ s (perm.map fun i => dims.getD i.toNat 0) := by
  induction perm with
  | nil => exact ⟨[], rfl, .nil⟩
  | cons i perm ih =>
    obtain ⟨hi, hrest⟩ := forall_mem_cons.mp h
    obtain ⟨d, hd, hdn⟩ := dimAt_sound hs hi.1 hi.2
    obtain ⟨s, hsome, hsn⟩ := ih hrest
    refine ⟨d :: s, ?_, .cons hdn hsn⟩
    rw [mapM_cons, ok_bind hd, ok_bind hsome]
    rfl

theorem transpose_sound {perm : Option (List Int)} (h : actualTranspose dims perm = some out) :
    ∃ s, transpose shape perm = .ok s ∧ Contains σ s out := by
  cases perm with
  | none =>
    cases h
    exact ⟨shape.reverse, rfl, rel_reverse hs⟩
  | some perm =>
    rw [actualTranspose] at h
    split at h
    · next hperm =>
      cases h
      cases perm with
      | nil =>
        have hnil : dims = [] := length_eq_zero_iff.mp hperm.1.symm
        subst hnil
        cases hs
        exact ⟨[], rfl, .nil⟩
      | cons i perm => exact mapM_dimAt_sound hs hperm.2.2
    · cases h

theorem contains_halves (k : Nat) :
    Contains σ [numel (shape.take k), numel (shape.drop k)] [(dims.take k).prod, (dims.drop k).prod] :=
  .cons (denotes_numel (forall₂_take k hs)) (.cons (denotes_numel (forall₂_drop k hs)) .nil)

theorem flatten_sound (h : actualFlatten dims axis = some out) : Contains σ (flatten shape axis) out := by
  have hlen : shape.length = dims.length := List.Forall₂.length_eq hs
  rw [actualFlatten] at h
  split at h
  · next hpos =>
    cases h
    have hsplit : flatten shape axis = [numel (shape.take axis.toNat), numel (shape.drop axis.toNat)] := by
      simp only [Layout.flatten, Layout.splitAt, if_neg (not_lt.mpr hpos.1)]
    rw [hsplit]
    exact contains_halves hs _
  · split at h
    · next hneg =>
      cases h
      have hk : ¬ (dims.length : Int) + axis < 0 := by omega
      have hsplit : flatten shape axis = [numel (shape.take (dims.length + axis).toNat),
          numel (shape.drop (dims.length + axis).toNat)] := by
        simp only [Layout.flatten, Layout.splitAt, if_pos hneg.2, if_neg hk, hlen, Int.add_comm axis]
      rw [hsplit]
      exact contains_halves hs _
    · cases h

omit hs

theorem contains_zipWith_mul {a b : Shape} (ha : Contains σ a xs) (hb : Contains σ b ys) :
    Contains σ (List.zipWith Dim.mul a b) (List.zipWith (fun n r => n * r) xs ys) := by
  induction ha generalizing b ys with
  | nil => exact .nil
  | cons hfirst _ ih =>
    cases hb with
    | nil => exact .nil
    | cons hfirst' hrest' => exact .cons (hfirst.mul hfirst') (ih hrest')

theorem tile_sound {repeats : Shape} {rs : List Nat} (hs : Contains σ shape dims) (hr : Contains σ repeats rs)
    (h : actualTile dims rs = some out) :
    ∃ s, tile shape repeats = some s ∧ Contains σ s out := by
  rw [actualTile] at h
  split at h
  · next hlen =>
    cases h
    refine ⟨_, ?_, contains_zipWith_mul hs hr⟩
    rw [tile, List.Forall₂.length_eq hs, List.Forall₂.length_eq hr, hlen, if_neg (not_not.mpr rfl)]
  · cases h

theorem reducedAxes_of_actual (hs : Contains σ shape dims) {red : List Nat}
    (h : actualReducedAxes dims.length axes = some red) :
    reducedAxes shape axes = .ok red := by
  have hlen : shape.length = dims.length := List.Forall₂.length_eq hs
  cases axes with
  | none =>
    cases h
    rw [reducedAxes, hlen]
  | some axes =>
    rw [reducedAxes, hlen]
    exact normAxes_of_actual h

theorem reduce_sound (hs : Contains σ shape dims) {keepdims : Bool} (h : actualReduce dims axes keepdims = some out) :
    ∃ s, reduce shape axes keepdims = .ok s ∧ Contains σ s out := by
  obtain ⟨red, hred, h⟩ := bind_eq_some_iff.mp h
  cases h
  rw [reduce, ok_bind (reducedAxes_of_actual hs hred)]
  cases keepdims with
  | true => exact ⟨_, rfl, forall₂_replace _ (denotes_exact 1) hs 0⟩
  | false => exact ⟨_, rfl, forall₂_select _ hs 0⟩

theorem reducedCount_sound (hs : Contains σ shape dims) (h : actualReducedCount dims axes = some n) :
    ∃ d, reducedCount shape axes = .ok d ∧ Denotes σ d n := by
  obtain ⟨red, hred, h⟩ := bind_eq_some_iff.mp h
  cases h
  rw [reducedCount, ok_bind (reducedAxes_of_actual hs hred)]
  exact ⟨_, rfl, denotes_numel (forall₂_select _ hs 0)⟩

end Onnxsim.ShapeRanges.LayoutSound
