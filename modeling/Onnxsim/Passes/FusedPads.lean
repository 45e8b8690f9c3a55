import Onnxsim.Passes.Pooling

namespace Onnxsim.Passes.FusedPads

open List Option Overflow.Arrays Gathers Pooling Windows
open Paddings (explicitAxes_spec grid_explicit grid_lengths paddedShape_length)

inductive PadMode where
  | constant
  | reflect
  | edge
  | wrap
deriving DecidableEq

/-- Where the fill value comes from; that of an input may not be known. -/
inductive Fill (α : Type) where
  | attr (v : α)
  | input (v : Option α)
  | absent

/-- `pads` is none when it is not a constant. The passes do not look at `axes`. -/
structure PadNode (α : Type) where
  pads : Option (List Int)
  mode : Option PadMode
  fill : Fill α
  axes : Option (List Int)

/-- The uses of the Pad's output beside the one that is to be rewritten. -/
structure Readers where
  others : Nat
  nested : Nat

/-- The uses that a value lists are those in nested graphs, too. -/
def Readers.uses (r : Readers) : Nat := 1 + r.others + r.nested

inductive Outcome where
  | declined
  | outOfRange
  | lengthError
  | fused (attrs : Attributes)
deriving DecidableEq

def Fill.isRequired {α : Type} [Zero α] [DecidableEq α] (required : α) : Fill α → Bool
  | .attr v => v = required
  | .input none => false
  | .input (some v) => v = required
  | .absent => required = 0

/-- Whether the entries at some places are zero; the reads stop at the first one that is not. -/
def zerosAt (pads : List Int) : List Nat → Option Bool
  | [] => some true
  | i :: is => pads[i]?.bind fun v => if v ≠ 0 then some false else zerosAt pads is

def addAt (own : List Int) (i : Nat) (v : Int) : Option (List Int) :=
  if i < own.length then some (own.modify i (· + v)) else none

def mergeStep (pads own : List Int) (j : Nat) : Option (List Int) :=
  pads[2 + j]?.bind fun v => (addAt own j v).bind fun own' =>
    pads[pads.length / 2 + (2 + j)]?.bind fun v' => addAt own' ((pads.length - 4) / 2 + j) v'

def merge (pads own : List Int) : Option (List Int) :=
  (List.range (pads.length / 2 - 2)).foldlM (mergeStep pads) own

def ownPads (attrs : Attributes) (pads : List Int) : List Int :=
  attrs.pads.getD (List.replicate (pads.length - 4) 0)

/-- What the two passes share, from the Pad's `pads` on. -/
def fold {α : Type} [Zero α] [DecidableEq α] (required : α) (blocked : Bool) (p : PadNode α) (attrs : Attributes) :
    Outcome :=
  match p.pads with
  | none => .declined
  | some pads =>
    if p.mode.getD .constant ≠ .constant ∨ p.fill.isRequired required = false then .declined
    else
      match zerosAt pads [0, 1, pads.length / 2, pads.length / 2 + 1] with
      | none => .outOfRange
      | some false => .declined
      | some true =>
        if (∃ v ∈ pads, v < 0) ∨ blocked = true then .declined
        else if pads.length < 4 then .lengthError
        else
          match merge pads (ownPads attrs pads) with
          | none => .outOfRange
          | some own => .fused { attrs with pads := some own }

def fusePadIntoConv {α : Type} [Zero α] [DecidableEq α] (p : PadNode α) (readers : Readers) (attrs : Attributes) :
    Outcome :=
  if 1 < readers.uses then .declined
  else fold 0 (attrs.autoPad.getD .notset ≠ .notset) p { attrs with autoPad := none }

structure PoolNode where
  attrs : Attributes
  countIncludePad : Option Int
  indicesUsed : Bool

def fusePadIntoMaxPool (p : PadNode (WithBot ℚ)) (readers : Readers) (node : PoolNode) : Outcome :=
  if 1 < readers.uses ∨ node.attrs.autoPad.getD .notset ≠ .notset ∨ node.indicesUsed = true then .declined
  else fold ⊥ false p node.attrs

/-- The fused pool gets `count_include_pad = 1`. -/
def fusePadIntoAveragePool (p : PadNode ℚ) (readers : Readers) (node : PoolNode) : Outcome :=
  if 1 < readers.uses ∨ node.attrs.autoPad.getD .notset ≠ .notset ∨
      ((∃ v ∈ node.attrs.pads.getD [], v ≠ 0) ∧ node.countIncludePad.getD 0 ≠ 1) then .declined
  else fold 0 false p node.attrs

section

section

variable {α : Type} [Inhabited α] [Zero α]

def spread (rank : Nat) (places : List Nat) (values : List Int) : List Int :=
  (List.range rank).map fun i => ((places.zip values).lookup i).getD 0

def fullPads (rank : Nat) (axes : Option (List Int)) (pads : List Int) : Option (List Int × List Int) :=
  match axes with
  | none => if pads.length = 2 * rank then some (pads.take rank, pads.drop rank) else none
  | some axes =>
    (axes.mapM (place rank)).bind fun places =>
      if pads.length = 2 * axes.length ∧ places.Nodup then
        some (spread rank places (pads.take axes.length), spread rank places (pads.drop axes.length))
      else none

def Fill.value : Fill α → Option α
  | .attr v => some v
  | .input v => v
  | .absent => some 0

def PadNode.run (p : PadNode α) (x : NDArray α) : Option (NDArray α) :=
  if p.mode.getD .constant = .constant then
    p.pads.bind fun pads => p.fill.value.bind fun v =>
      (fullPads x.shape.length p.axes pads).bind fun full => pad full.1 full.2 v x
  else none

def PoolSame (p : PadNode α) (attrs attrs' : Attributes) (reduce reduce' : List (Cell α) → α) (sizes : List Nat) : Prop :=
  ∀ (batch channels : Nat) (x z : NDArray α), x.shape = batch :: channels :: sizes →
    ((p.run x).bind (pool attrs reduce)) = some z → pool attrs' reduce' x = some z

end

def ConvSame {α : Type} [Inhabited α] [Semiring α] (p : PadNode α) (attrs attrs' : Attributes) (group : Nat) (kernel sizes : List Nat) : Prop :=
  ∀ (batch channels : Nat) (x w : NDArray α) (bias : Option (NDArray α)) (z : NDArray α),
    x.shape = batch :: channels :: sizes → w.shape.drop 2 = kernel →
      ((p.run x).bind fun y => conv attrs group y w bias) = some z → conv attrs' group x w bias = some z

/-- A pass does not index out of range, and when it fires, the node has pads for all spatial axes, nothing reads the
Pad any more, and the node computes the same. -/
structure Sound (readers : Readers) (nd : Nat) (same : Attributes → Prop) (o : Outcome) : Prop where
  inRange : o ≠ .outOfRange
  length_eq : ∀ attrs', o = .fused attrs' → ∃ pads, attrs'.pads = some pads ∧ pads.length = 2 * nd
  unread : ∀ attrs', o = .fused attrs' → readers.nested = 0
  same : ∀ attrs', o = .fused attrs' → same attrs'

end

/-- The pads by position, without those that the passes take for the ones of the feature axes. -/
def spatialPads (pads : List Int) : List Int :=
  (pads.drop 2).take (pads.length / 2 - 2) ++ (pads.drop (pads.length / 2 + 2)).take (pads.length / 2 - 2)

def added (pads own : List Int) : List Int := own.mapIdx fun i v => v + (spatialPads pads).getD i 0

/-- The merged list covers what is added to it, and has a number for both ends of every axis. -/
structure Fits (pads own : List Int) (nd : Nat) : Prop where
  room : 2 * (pads.length / 2 - 2) ≤ own.length
  length_eq : own.length = 2 * nd

/-- The number of the first window that does not end in the input, when all that do are counted. -/
def extraWindow (a : Axis) (n : Nat) : Int := -(-a.room n / a.stride)

/-- That window does not start in the padding behind the input. -/
def StartsOutside (a : Axis) (b e : Int) (n : Nat) : Prop :=
  extraWindow a ((n : Int) + b + e).toNat < 0 ∨
    extraWindow a ((n : Int) + b + e).toNat * a.stride < n + b + a.padBegin ∨
    n + b + e + a.padBegin ≤ extraWindow a ((n : Int) + b + e).toNat * a.stride

instance (a : Axis) (b e : Int) (n : Nat) : Decidable (StartsOutside a b e n) := inferInstanceAs (Decidable (_ ∨ _))

def AllStartOutside : List Axis → List Int → List Int → List Nat → Prop
  | a :: axes, b :: begins, e :: ends, n :: sizes => StartsOutside a b e n ∧ AllStartOutside axes begins ends sizes
  | _, _, _, _ => True

/-- The windows behind the Pad cover what those of the fused node cover; `alike` compares two windows. -/
structure WindowsAgree (alike : List (Cell (List Nat)) → List (Cell (List Nat)) → Prop) (attrs' : Attributes)
    (begins ends : List Int) (kernel sizes : List Nat) (g : Grid) : Prop where
  begins_features : begins.take 2 = [0, 0]
  ends_features : ends.take 2 = [0, 0]
  agree : ∃ g', grid attrs' kernel sizes = some g' ∧ g'.outSizes = g.outSizes ∧ ∀ os ∈ indices g.outSizes,
    alike ((indices kernel).map fun js => through (begins.drop 2) sizes
      (cells g.axes (paddedShape (begins.drop 2) (ends.drop 2) sizes) os js)) ((indices kernel).map (cells g'.axes sizes os))

/-- When the Pad has no axes, only a rounded up number of windows can differ. -/
def Agrees {α : Type} (alike : List (Cell (List Nat)) → List (Cell (List Nat)) → Prop) (p : PadNode α) (attrs : Attributes)
    (pads : List Int) (kernel sizes : List Nat) : Prop :=
  ∀ begins ends g, fullPads (sizes.length + 2) p.axes pads = some (begins, ends) →
    grid attrs kernel (paddedShape (begins.drop 2) (ends.drop 2) sizes) = some g →
      match p.axes with
      | none => attrs.ceilMode = false ∨ AllStartOutside g.axes (begins.drop 2) (ends.drop 2) sizes
      | some _ => WindowsAgree alike { attrs with pads := some (added pads (ownPads attrs pads)) } begins ends kernel sizes g

/-- The inputs on which the part that the passes share is right. -/
def FoldsRight {α : Type} [Zero α] [DecidableEq α] (required : α) (alike : List (Cell (List Nat)) → List (Cell (List Nat)) → Prop)
    (p : PadNode α) (attrs : Attributes) (kernel sizes : List Nat) : Prop :=
  ∀ pads, p.pads = some pads → p.mode.getD .constant = .constant → p.fill.isRequired required = true →
    ¬ (pads.length ≤ 2 ∧ ∀ v ∈ pads, v = 0) ∧
    (attrs.autoPad.getD .notset = .notset → 4 ≤ pads.length → (∀ v ∈ pads, 0 ≤ v) → pads.take 2 = [0, 0] →
      (pads.drop (pads.length / 2)).take 2 = [0, 0] →
        Fits pads (ownPads attrs pads) sizes.length ∧ Agrees alike p attrs pads kernel sizes)

def sameTaps (l l' : List (Cell (List Nat))) : Prop := l.map Cell.read = l'.map Cell.read

def sameElements (l l' : List (Cell (List Nat))) : Prop := ∀ p, p ∈ covered l ↔ p ∈ covered l'

def sameWeights (l l' : List (Cell (List Nat))) : Prop := ∀ p, weight l p = weight l' p

variable {pads own own' : List Int} {is : List Nat} {i k : Nat}

theorem zerosAt_eq_true (h : zerosAt pads is = some true) : ∀ i ∈ is, pads[i]? = some 0 := by
  induction is with
  | nil => simp
  | cons i is ih =>
    rw [zerosAt] at h
    obtain ⟨v, hv, h⟩ := bind_eq_some_iff.mp h
    by_cases hne : v ≠ 0
    · rw [if_pos hne] at h
      cases h
    · rw [if_neg hne] at h
      rw [forall_mem_cons]
      refine ⟨?_, ih h⟩
      rw [hv, not_not.mp hne]

theorem zerosAt_of_zero (h : ∀ i ∈ is, pads[i]? = some 0) : zerosAt pads is = some true := by
  induction is with
  | nil => rfl
  | cons i is ih =>
    rw [forall_mem_cons] at h
    rw [zerosAt, h.1, bind_some, if_neg (by simp), ih h.2]

theorem zerosAt_ne_none (h : ∀ i ∈ is, i < pads.length) : zerosAt pads is ≠ none := by
  induction is with
  | nil => simp [zerosAt]
  | cons i is ih =>
    rw [forall_mem_cons] at h
    rw [zerosAt, getElem?_eq_getElem h.1, bind_some]
    split
    · simp
    · exact ih h.2

theorem features_eq_none_iff (pads : List Int) :
    zerosAt pads [0, 1, pads.length / 2, pads.length / 2 + 1] = none ↔ pads.length ≤ 2 ∧ ∀ v ∈ pads, v = 0 := by
  by_cases hlen : 2 < pads.length
  · constructor
    · intro h
      refine absurd h (zerosAt_ne_none ?_)
      simp only [mem_cons, not_mem_nil, or_false]
      rintro i (rfl | rfl | rfl | rfl) <;> omega
    · intro h
      omega
  · cases pads with
    | nil => simp [zerosAt]
    | cons a pads =>
      cases pads with
      | nil => by_cases ha : a = 0 <;> simp [zerosAt, ha]
      | cons b pads =>
        cases pads with
        | nil =>
          by_cases ha : a = 0
          · by_cases hb : b = 0 <;> simp [zerosAt, ha, hb]
          · simp [zerosAt, ha]
        | cons c pads => simp at hlen

theorem take_two_eq {l : List Int} : l.take 2 = [0, 0] ↔ l[0]? = some 0 ∧ l[1]? = some 0 := by
  cases l with
  | nil => simp
  | cons a l => cases l <;> simp

theorem features_eq_true_iff (pads : List Int) :
    zerosAt pads [0, 1, pads.length / 2, pads.length / 2 + 1] = some true ↔
      pads.take 2 = [0, 0] ∧ (pads.drop (pads.length / 2)).take 2 = [0, 0] := by
  rw [take_two_eq, take_two_eq, getElem?_drop, getElem?_drop, Nat.add_zero]
  constructor
  · intro h
    have := zerosAt_eq_true h
    simpa [and_assoc] using this
  · intro h
    apply zerosAt_of_zero
    simpa [and_assoc] using h

def mergedBy (pads own : List Int) (k : Nat) : List Int :=
  own.mapIdx fun i v => v + if i < k then pads.getD (2 + i) 0
    else if pads.length / 2 - 2 ≤ i ∧ i < pads.length / 2 - 2 + k then
      pads.getD (pads.length / 2 + (2 + (i - (pads.length / 2 - 2)))) 0
    else 0

theorem length_mergedBy (pads own : List Int) (k : Nat) : (mergedBy pads own k).length = own.length :=
  length_mapIdx

theorem addAt_mem (h : i < own.length) (v : Int) : addAt own i v = some (own.modify i (· + v)) :=
  if_pos h

theorem mergeStep_mergedBy (hlen : 4 ≤ pads.length) (hk : k < pads.length / 2 - 2)
    (hroom : pads.length / 2 - 2 + k < own.length) :
    mergeStep pads (mergedBy pads own k) k = some (mergedBy pads own (k + 1)) := by
  have hget : ∀ i < pads.length, pads[i]? = some (pads.getD i 0) := by
    intro i hi
    rw [getElem?_eq_getElem hi, getD_eq_getElem pads 0 hi]
  have hhalf : (pads.length - 4) / 2 = pads.length / 2 - 2 := by omega
  have hfirst : k < (mergedBy pads own k).length := by
    rw [length_mergedBy]
    omega
  rw [mergeStep, hget _ (by omega), bind_some, addAt_mem hfirst, bind_some, hget _ (by omega),
    bind_some, hhalf, addAt_mem (by rw [length_modify, length_mergedBy]; omega)]
  congr 1
  apply ext_getElem
  · rw [length_modify, length_modify, length_mergedBy, length_mergedBy]
  · intro i h₁ h₂
    rw [getElem_modify, getElem_modify]
    simp only [mergedBy, getElem_mapIdx]
    by_cases hi : i = k
    · subst hi
      rw [if_neg (by omega), if_pos rfl, if_neg (by omega), if_neg (by omega), if_pos (by omega), Int.add_zero]
    · by_cases hi' : i = pads.length / 2 - 2 + k
      · subst hi'
        rw [if_pos rfl, if_neg (by omega), if_neg (by omega), if_neg (by omega), if_neg (by omega), if_pos (by omega),
          Int.add_zero, Nat.add_sub_cancel_left]
      · rw [if_neg (fun h => hi' h.symm), if_neg (fun h => hi h.symm)]
        congr 1
        split_ifs <;> first | rfl | omega

theorem foldlM_mergedBy (hlen : 4 ≤ pads.length) (hk : k ≤ pads.length / 2 - 2)
    (hroom : pads.length / 2 - 2 + k ≤ own.length) :
    (List.range k).foldlM (mergeStep pads) own = some (mergedBy pads own k) := by
  induction k with
  | zero =>
    have hsame : mergedBy pads own 0 = own := by
      apply ext_getElem
      · exact length_mergedBy pads own 0
      · intro i h₁ h₂
        simp only [mergedBy, getElem_mapIdx]
        rw [if_neg (by omega), if_neg (by omega), Int.add_zero]
    rw [hsame]
    rfl
  | succ k ih =>
    rw [range_succ, List.foldlM_append, ih (by omega) (by omega)]
    show mergeStep pads (mergedBy pads own k) k >>= _ = _
    rw [mergeStep_mergedBy hlen (by omega) (by omega)]
    rfl

theorem mergedBy_eq_added (hlen : 4 ≤ pads.length) (own : List Int) :
    mergedBy pads own (pads.length / 2 - 2) = added pads own := by
  apply ext_getElem
  · rw [length_mergedBy, added, length_mapIdx]
  · intro i h₁ h₂
    simp only [mergedBy, added, getElem_mapIdx]
    congr 1
    unfold spatialPads
    have hl₁ : ((pads.drop 2).take (pads.length / 2 - 2)).length = pads.length / 2 - 2 := by
      rw [length_take, List.length_drop]
      omega
    have hl₂ : ((pads.drop (pads.length / 2 + 2)).take (pads.length / 2 - 2)).length = pads.length / 2 - 2 := by
      rw [length_take, List.length_drop]
      omega
    simp only [getD_eq_getElem?_getD]
    by_cases hi : i < pads.length / 2 - 2
    · rw [if_pos hi, getElem?_append_left (by omega), getElem?_take_of_lt hi, getElem?_drop]
    · rw [if_neg hi, getElem?_append_right (by omega), hl₁]
      by_cases hi' : i < pads.length / 2 - 2 + (pads.length / 2 - 2)
      · rw [if_pos (by omega), getElem?_take_of_lt (by omega), getElem?_drop]
        congr 2
        omega
      · rw [if_neg (by omega), getElem?_eq_none (by omega)]
        rfl

theorem addAt_eq_some {v : Int} (h : addAt own i v = some own') : i < own.length ∧ own'.length = own.length := by
  unfold addAt at h
  split at h
  · next hi =>
    cases h
    exact ⟨hi, length_modify _ _ _⟩
  · cases h

theorem mergeStep_eq_some {j : Nat} (h : mergeStep pads own j = some own') :
    (pads.length - 4) / 2 + j < own.length ∧ own'.length = own.length := by
  obtain ⟨v, -, h⟩ := bind_eq_some_iff.mp h
  obtain ⟨own₁, h₁, h⟩ := bind_eq_some_iff.mp h
  obtain ⟨v', -, h₂⟩ := bind_eq_some_iff.mp h
  have hlen := (addAt_eq_some h₁).2
  have hspec := addAt_eq_some h₂
  rw [hlen] at hspec
  exact hspec

theorem length_foldlM_mergeStep {js : List Nat} (h : js.foldlM (mergeStep pads) own = some own') :
    own'.length = own.length := by
  induction js generalizing own with
  | nil =>
    cases h
    rfl
  | cons j js ih =>
    rw [foldlM_cons] at h
    obtain ⟨own₁, h₁, h⟩ := bind_eq_some_iff.mp h
    rw [ih h, (mergeStep_eq_some h₁).2]

theorem merge_eq (pads own : List Int) (hlen : 4 ≤ pads.length) :
    merge pads own = if 2 * (pads.length / 2 - 2) ≤ own.length then some (added pads own) else none := by
  split
  · next hroom =>
    rw [merge, foldlM_mergedBy hlen (Nat.le_refl _) (by omega), mergedBy_eq_added hlen]
  · next hroom =>
    cases hrun : merge pads own with
    | none => rfl
    | some own' =>
      exfalso
      obtain ⟨k, hk⟩ : ∃ k, pads.length / 2 - 2 = k + 1 := Nat.exists_eq_add_one.mpr (by omega)
      unfold merge at hrun
      rw [hk, range_succ, List.foldlM_append] at hrun
      obtain ⟨acc, hacc, hlast⟩ := bind_eq_some_iff.mp hrun
      obtain ⟨last, hlast, -⟩ := bind_eq_some_iff.mp hlast
      have hbound := (mergeStep_eq_some hlast).1
      rw [length_foldlM_mergeStep hacc] at hbound
      omega

variable {α : Type} [Zero α] [DecidableEq α] {readers : Readers} {nd : Nat} {same : Attributes → Prop}

theorem sound_of_quiet {o : Outcome} (h : o = .declined ∨ o = .lengthError) : Sound readers nd same o := by
  obtain rfl | rfl := h
  · exact ⟨nofun, nofun, nofun, nofun⟩
  · exact ⟨nofun, nofun, nofun, nofun⟩

theorem sound_fused_iff {attrs' : Attributes} (hpads : attrs'.pads = some own) (hnested : readers.nested = 0) :
    Sound readers nd same (.fused attrs') ↔ own.length = 2 * nd ∧ same attrs' := by
  constructor
  · intro h
    obtain ⟨own', hown', hlen⟩ := h.length_eq attrs' rfl
    rw [hpads] at hown'
    obtain rfl := Option.some.inj hown'
    exact ⟨hlen, h.same attrs' rfl⟩
  · rintro ⟨hlen, hsame⟩
    refine ⟨nofun, ?_, fun _ _ => hnested, ?_⟩
    · intro attrs h
      cases h
      exact ⟨own, hpads, hlen⟩
    · intro attrs h
      cases h
      exact hsame

/-- What is shared is right when no read leaves the Pad's list and what is merged has the right length and meaning. -/
theorem sound_fold_iff (required : α) (blocked : Bool) (p : PadNode α) (attrs : Attributes) (hnested : readers.nested = 0) :
    Sound readers nd same (fold required blocked p attrs) ↔ ∀ pads, p.pads = some pads →
      p.mode.getD .constant = .constant → p.fill.isRequired required = true →
        ¬ (pads.length ≤ 2 ∧ ∀ v ∈ pads, v = 0) ∧
        (blocked = false → 4 ≤ pads.length → (∀ v ∈ pads, 0 ≤ v) → pads.take 2 = [0, 0] →
          (pads.drop (pads.length / 2)).take 2 = [0, 0] → Fits pads (ownPads attrs pads) nd ∧
            same { attrs with pads := some (added pads (ownPads attrs pads)) }) := by
  unfold fold
  cases hpads : p.pads with
  | none => exact ⟨fun _ => nofun, fun _ => sound_of_quiet (Or.inl rfl)⟩
  | some pads =>
    dsimp only
    have hall : ∀ {P : List Int → Prop}, (∀ pads', some pads = some pads' → P pads') ↔ P pads := by
      intro P
      exact ⟨fun h => h pads rfl, fun h pads' heq => Option.some.inj heq ▸ h⟩
    rw [hall]
    split
    · next hguard =>
      refine ⟨fun _ hmode hfill => ?_, fun _ => sound_of_quiet (Or.inl rfl)⟩
      obtain hguard | hguard := hguard
      · exact absurd hmode hguard
      · rw [hfill] at hguard
        cases hguard
    · next hguard =>
      push Not at hguard
      rw [Bool.ne_false_iff] at hguard
      simp only [hguard.1, hguard.2, forall_const]
      split
      · next hnone =>
        rw [features_eq_none_iff] at hnone
        exact ⟨fun h => absurd rfl h.inRange, fun h => absurd hnone h.1⟩
      · next hfalse =>
        have hin : ¬ (pads.length ≤ 2 ∧ ∀ v ∈ pads, v = 0) := by
          rw [← features_eq_none_iff, hfalse]
          nofun
        have hnot : ¬ (pads.take 2 = [0, 0] ∧ (pads.drop (pads.length / 2)).take 2 = [0, 0]) := by
          rw [← features_eq_true_iff, hfalse]
          nofun
        refine ⟨fun _ => ⟨hin, fun _ _ _ h₁ h₂ => absurd ⟨h₁, h₂⟩ hnot⟩, fun _ => sound_of_quiet (Or.inl rfl)⟩
      · next htrue =>
        have hin : ¬ (pads.length ≤ 2 ∧ ∀ v ∈ pads, v = 0) := by
          rw [← features_eq_none_iff, htrue]
          nofun
        rw [features_eq_true_iff] at htrue
        simp only [htrue.1, htrue.2, forall_const]
        split
        · next hneg =>
          refine ⟨fun _ => ⟨hin, fun hblocked _ hnonneg => ?_⟩, fun _ => sound_of_quiet (Or.inl rfl)⟩
          obtain ⟨v, hv, hlt⟩ | hneg := hneg
          · have := hnonneg v hv
            omega
          · rw [hblocked] at hneg
            cases hneg
        · next hnonneg =>
          push Not at hnonneg
          rw [ne_eq, Bool.not_eq_true] at hnonneg
          split
          · next hshort => exact ⟨fun _ => ⟨hin, fun _ hlen => absurd hlen (by omega)⟩, fun _ => sound_of_quiet (Or.inr rfl)⟩
          · next hlen =>
            have hlen' : 4 ≤ pads.length := by omega
            simp only [hlen', hnonneg.2, forall_const, hin, not_false_eq_true, true_and]
            rw [merge_eq pads _ hlen']
            by_cases hroom : 2 * (pads.length / 2 - 2) ≤ (ownPads attrs pads).length
            · rw [if_pos hroom]
              rw [sound_fused_iff rfl hnested, added, length_mapIdx]
              constructor
              · rintro ⟨heq, hsame⟩ -
                exact ⟨⟨hroom, heq⟩, hsame⟩
              · intro h
                obtain ⟨hfits, hsame⟩ := h hnonneg.1
                exact ⟨hfits.length_eq, hsame⟩
            · rw [if_neg hroom]
              refine ⟨fun h => absurd rfl h.inRange, fun h => absurd (h hnonneg.1).1.room hroom⟩

end Onnxsim.Passes.FusedPads
