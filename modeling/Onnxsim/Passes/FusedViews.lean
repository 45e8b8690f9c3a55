import Onnxsim.Passes.Views

namespace Onnxsim.Passes.FusedViews

open List Option PartialShape.Reshaping Views
open Reduce.Axes Reduce.Exactness Reduce.Fusion Reduce.Mapping

section

/-- Whether `FuseConsecutiveReshapes` lets a Reshape read the input of the Reshape before it. -/
def fuseConsecutiveReshapes (allowzero : Option Int) (shape : Operand) : Bool :=
  if allowzero = some 1 then true
  else
    match shape.read with
    | none => false
    | some newShape => !newShape.any fun d => d == 0

def handledElsewhere : ViewNode → ViewNode → Bool
  | .reshape _ _, .reshape _ _ => true
  | .squeeze _, .squeeze _ => true
  | .unsqueeze _, .unsqueeze _ => true
  | .squeeze _, .unsqueeze _ => true
  | .unsqueeze _, .squeeze _ => true
  | _, _ => false

/-- The loop over the recorded dimensions: the entries of the target, and whether one of them is to be inferred. -/
def targetLoop : List Dimension → Bool → Option (List Int × Bool)
  | [], seenUnknown => some ([], seenUnknown)
  | .size d :: dims, seenUnknown => (targetLoop dims seenUnknown).map fun r => (d :: r.1, r.2)
  | _ :: dims, seenUnknown => if seenUnknown then none else (targetLoop dims true).map fun r => (-1 :: r.1, r.2)

/-- `FuseReshapeFamily` on a node whose output has the recorded dimensions `sizes`: the Reshape in its place. -/
def fuseReshapeFamily (opset : Int) (n prev : ViewNode) (sizes : Option (List Dimension)) : Option ViewNode :=
  if handledElsewhere n prev then none
  else
    match sizes with
    | none => none
    | some dims =>
      if dims = [] then none
      else
        (targetLoop dims false).bind fun r =>
          let hasZero := r.1.any fun d => d == 0
          if hasZero && r.2 then none
          else if hasZero && opset < 14 then none
          else some (.reshape (if hasZero then some 1 else none) ⟨r.1, true⟩)

variable (addYIfNegative : Int → Int → Int)

/-- The inner loop moves an axis past each outer axis that is not behind it. -/
def shiftAxis (axes : List Int) (n : Int) : Int := axes.foldl (fun n m => if m ≤ n then n + 1 else n) n

/-- The axes of the Unsqueeze in the place of two; `sizes` is recorded of the input of the first one. -/
def fuseConsecutiveUnsqueezes (axesOfPrev axes : Operand) (sizes : Option (List Dimension)) : Option (List Int) :=
  axes.read.bind fun axes => axesOfPrev.read.bind fun axesOfPrev =>
    if sizes.isNone && (axesOfPrev.any (fun a => a < 0) || axes.any fun a => a < 0) then none
    else
      let rank := (sizes.getD []).length
      let prev := axesOfPrev.map fun a => addYIfNegative a ((rank + axesOfPrev.length : Nat) : Int)
      let outer := axes.map fun a => addYIfNegative a ((rank + axesOfPrev.length + axes.length : Nat) : Int)
      let prev := prev.insertionSort (· ≤ ·)
      let outer := outer.insertionSort (· ≤ ·)
      some ((prev.map (shiftAxis outer) ++ outer).insertionSort (· ≤ ·))

/-- Two Reshapes that are fused, on a shape that they are valid on. -/
structure ReshapesRun where
  prev : ViewNode
  allowzero : Option Int
  shape : Operand
  dims : List Nat
  mid : List Nat
  out : List Nat
  inner : prev.shape dims = some mid
  outer : (ViewNode.reshape allowzero shape).shape mid = some out
  fires : fuseConsecutiveReshapes allowzero shape = true

def ReshapesRun.Right (r : ReshapesRun) : Prop := (ViewNode.reshape r.allowzero r.shape).shape r.dims = some r.out

/-- A pair that `FuseReshapeFamily` fuses, on a shape that it is valid on and for which the record of its output holds. -/
structure FamilyRun where
  opset : Int
  prev : ViewNode
  n : ViewNode
  sizes : Option (List Dimension)
  symbols : String → Nat
  dims : List Nat
  mid : List Nat
  out : List Nat
  inner : prev.shape dims = some mid
  outer : n.shape mid = some out
  recorded : ∀ s, sizes = some s → Conforms symbols s out
  fused : ViewNode
  fires : fuseReshapeFamily opset n prev sizes = some fused

def FamilyRun.Right (r : FamilyRun) : Prop := 5 ≤ r.opset ∧ r.fused.shape r.dims = some r.out

/-- Two Unsqueezes that are fused, on a shape that they are valid on and that conforms to the record. -/
structure UnsqueezesRun (addYIfNegative : Int → Int → Int) where
  axesOfPrev : Operand
  axes : Operand
  sizes : Option (List Dimension)
  symbols : String → Nat
  dims : List Nat
  mid : List Nat
  out : List Nat
  inner : (ViewNode.unsqueeze axesOfPrev).shape dims = some mid
  outer : (ViewNode.unsqueeze axes).shape mid = some out
  recorded : ∀ s, sizes = some s → Conforms symbols s dims
  fused : List Int
  fires : fuseConsecutiveUnsqueezes addYIfNegative axesOfPrev axes sizes = some fused

def UnsqueezesRun.Right {addYIfNegative : Int → Int → Int} (r : UnsqueezesRun addYIfNegative) : Prop :=
  (ViewNode.unsqueeze ⟨r.fused, true⟩).shape r.dims = some r.out

theorem read_eq {o : Operand} {v : List Int} (h : o.read = some v) : o.value = v := by
  unfold Operand.read at h
  split_ifs at h
  exact Option.some.inj h

theorem fired_uncopied {allowzero : Option Int} {shape : Operand} (h : fuseConsecutiveReshapes allowzero shape = true) :
    (allowzero == some 1) = true ∨ 0 ∉ shape.value := by
  unfold fuseConsecutiveReshapes at h
  by_cases hz : allowzero = some 1
  · exact .inl (by simp [hz])
  · rw [if_neg hz] at h
    apply Or.inr
    cases hread : shape.read with
    | none =>
      rw [hread] at h
      cases h
    | some newShape =>
      rw [hread] at h
      rw [read_eq hread]
      have hnonzero : ∀ d ∈ newShape, ¬ d = 0 := by simpa using h
      exact fun hmem => hnonzero 0 hmem rfl

theorem ReshapesRun.right (r : ReshapesRun) : r.Right := by
  have hprod : r.dims.prod = r.mid.prod := (ViewNode.shape_prod r.inner).symm
  have hsame := targetDims_uncopied (fired_uncopied r.fires) hprod
  have houter : targetDims (r.allowzero == some 1) r.mid r.shape.value = some r.out := r.outer
  rw [← hsame] at houter
  exact houter

variable {ν : String → Nat} {dims : List Dimension} {out : List Nat} {target : List Int}

theorem targetLoop_seen (hconf : Conforms ν dims out) {seen : Bool} (h : targetLoop dims true = some (target, seen)) :
    seen = true ∧ target = out.map (Nat.cast : Nat → Int) := by
  induction dims generalizing out target with
  | nil =>
    obtain rfl := forall₂_nil_left_iff.mp hconf
    rw [targetLoop, Option.some.injEq, Prod.mk.injEq] at h
    exact ⟨h.2.symm, h.1.symm⟩
  | cons d dims ih =>
    obtain ⟨n, rest, hd, hrest, rfl⟩ := forall₂_cons_left_iff.mp hconf
    cases d with
    | unknown => simp [targetLoop] at h
    | param s => simp [targetLoop] at h
    | size d =>
      rw [targetLoop, map_eq_some_iff] at h
      obtain ⟨⟨t, seen'⟩, ht, heq⟩ := h
      obtain ⟨rfl, rfl⟩ := Prod.mk.inj heq
      obtain ⟨hseen, rfl⟩ := ih hrest ht
      have hd' : (n : Int) = d := hd
      exact ⟨hseen, by rw [map_cons, hd']⟩

theorem targetLoop_spells (hconf : Conforms ν dims out) {seen : Bool}
    (h : targetLoop dims false = some (target, seen)) :
    (seen = false ∧ target = out.map (Nat.cast : Nat → Int)) ∨
      (seen = true ∧ ∃ before n after, out = before ++ n :: after ∧
        target = before.map (Nat.cast : Nat → Int) ++ -1 :: after.map (Nat.cast : Nat → Int)) := by
  induction dims generalizing out target with
  | nil =>
    obtain rfl := forall₂_nil_left_iff.mp hconf
    rw [targetLoop, Option.some.injEq, Prod.mk.injEq] at h
    exact .inl ⟨h.2.symm, h.1.symm⟩
  | cons d dims ih =>
    obtain ⟨n, rest, hd, hrest, rfl⟩ := forall₂_cons_left_iff.mp hconf
    have hunknown : (targetLoop dims true).map (fun r => (-1 :: r.1, r.2)) = some (target, seen) →
        seen = true ∧ target = -1 :: rest.map (Nat.cast : Nat → Int) := by
      intro hmap
      obtain ⟨⟨t, seen'⟩, ht, heq⟩ := map_eq_some_iff.mp hmap
      obtain ⟨rfl, rfl⟩ := Prod.mk.inj heq
      obtain ⟨hseen, rfl⟩ := targetLoop_seen hrest ht
      exact ⟨hseen, rfl⟩
    cases d with
    | unknown =>
      obtain ⟨hseen, htarget⟩ := hunknown h
      exact .inr ⟨hseen, [], n, rest, rfl, htarget⟩
    | param s =>
      obtain ⟨hseen, htarget⟩ := hunknown h
      exact .inr ⟨hseen, [], n, rest, rfl, htarget⟩
    | size d =>
      rw [targetLoop, map_eq_some_iff] at h
      obtain ⟨⟨t, seen'⟩, ht, heq⟩ := h
      obtain ⟨rfl, rfl⟩ := Prod.mk.inj heq
      have hd' : (n : Int) = d := hd
      cases ih hrest ht with
      | inl hknown =>
        obtain ⟨hseen, rfl⟩ := hknown
        exact .inl ⟨hseen, by rw [map_cons, hd']⟩
      | inr hsome =>
        obtain ⟨hseen, before, m, after, rfl, rfl⟩ := hsome
        exact .inr ⟨hseen, n :: before, m, after, rfl, by rw [map_cons, hd', cons_append]⟩

theorem targetDims_literal {allowzero : Bool} {x : List Nat} (h : allowzero = true ∨ 0 ∉ out)
    (hprod : out.prod = x.prod) : targetDims allowzero x (out.map (Nat.cast : Nat → Int)) = some out := by
  have hcount : (out.map some).count none = 0 := count_eq_zero.mpr (by simp)
  have hknown : (out.map some).filterMap id = out := by
    rw [filterMap_map]
    exact List.filterMap_some
  rw [targetDims, entryDims_literal h, bind_some]
  rw [if_pos hcount, hknown, if_pos hprod]

theorem FamilyRun.fused_shape (r : FamilyRun) : r.fused.shape r.dims = some r.out := by
  have hprod : r.out.prod = r.dims.prod := (ViewNode.shape_prod r.outer).trans (ViewNode.shape_prod r.inner)
  have hfires := r.fires
  unfold fuseReshapeFamily at hfires
  split_ifs at hfires
  cases hsizes : r.sizes with
  | none =>
    rw [hsizes] at hfires
    cases hfires
  | some sizes =>
    have hconf := r.recorded sizes hsizes
    rw [hsizes] at hfires
    dsimp only at hfires
    split_ifs at hfires
    obtain ⟨⟨target, seen⟩, htarget, hfused⟩ := bind_eq_some_iff.mp hfires
    split_ifs at hfused with hboth hold hzero
    · obtain hfused := (Option.some.inj hfused).symm
      have hseen : seen = false := by
        cases seen with
        | false => rfl
        | true => exact absurd (by rw [hzero]; rfl) hboth
      cases targetLoop_spells hconf htarget with
      | inl hknown =>
        rw [hfused, hknown.2]
        exact targetDims_literal (.inl rfl) hprod
      | inr hsome =>
        rw [hseen] at hsome
        exact absurd hsome.1 (by simp)
    · obtain hfused := (Option.some.inj hfused).symm
      have hfresh : 0 ∉ target := by simpa using hzero
      cases targetLoop_spells hconf htarget with
      | inl hknown =>
        obtain ⟨-, rfl⟩ := hknown
        rw [hfused]
        exact targetDims_literal (.inr (by simpa using hfresh)) hprod
      | inr hsome =>
        obtain ⟨-, before, n, after, hout, rfl⟩ := hsome
        have hpos : ∀ l : List Nat, (0 : Int) ∉ l.map (Nat.cast : Nat → Int) →
            ∀ v ∈ l.map (Nat.cast : Nat → Int), 0 < v := by
          intro l hl v hv
          obtain ⟨m, -, rfl⟩ := List.mem_map.mp hv
          have hne : (m : Int) ≠ 0 := fun h => hl (h ▸ hv)
          omega
        rw [mem_append, mem_cons, not_or, not_or] at hfresh
        have hfill : ((before.map (Nat.cast : Nat → Int)).map Int.toNat).prod *
            ((after.map (Nat.cast : Nat → Int)).map Int.toNat).prod * n = r.dims.prod := by
          rw [toNat_casts, toNat_casts, ← hprod, hout, prod_append, prod_cons]
          ring
        have hinferred : targetDims false r.dims
            (before.map (Nat.cast : Nat → Int) ++ -1 :: after.map (Nat.cast : Nat → Int)) = some _ :=
          targetDims_inferred (hpos before hfresh.1) (hpos after hfresh.2.2) hfill
        rw [toNat_casts, toNat_casts, ← hout] at hinferred
        rw [hfused]
        exact hinferred

theorem FamilyRun.right_iff (r : FamilyRun) : r.Right ↔ 5 ≤ r.opset := and_iff_left r.fused_shape

end

variable {axes : List Int} {orig : Int} {rank s k : Nat}

theorem shiftAxis_below (h : ∀ a ∈ axes, orig < a) : shiftAxis axes orig = orig := by
  induction axes with
  | nil => rfl
  | cons a axes ih =>
    have ha := h a mem_cons_self
    have hrest := ih fun b hb => h b (mem_cons_of_mem a hb)
    rw [shiftAxis, foldl_cons, if_neg (by omega)]
    exact hrest

theorem shiftAxis_head {n : Int} (h : orig ≤ n) : shiftAxis (orig :: axes) n = shiftAxis axes (n + 1) := by
  rw [shiftAxis, foldl_cons, if_pos h]
  rfl

theorem shiftAxis_spec (hsorted : axes.Pairwise (· < ·)) (hrange : ∀ a ∈ axes, orig ≤ a)
    (h : nthKept (maskFrom axes orig rank) s = some k) : shiftAxis axes (orig + s) = orig + k := by
  induction rank generalizing axes orig s k with
  | zero => cases h
  | succ rank ih =>
    have hhead : (∃ rest, axes = orig :: rest) ∨ ∀ a ∈ axes, orig < a := by
      by_cases hmem : orig ∈ axes
      · cases axes with
        | nil => cases hmem
        | cons a rest =>
          have ha := hrange a mem_cons_self
          cases mem_cons.mp hmem with
          | inl heq => exact .inl ⟨rest, by rw [heq]⟩
          | inr hmem =>
            have := (pairwise_cons.mp hsorted).1 orig hmem
            omega
      · refine .inr fun a ha => ?_
        have hne : a ≠ orig := fun heq => hmem (heq ▸ ha)
        have := hrange a ha
        omega
    rw [maskFrom] at h
    cases hhead with
    | inl hcons =>
      obtain ⟨rest, rfl⟩ := hcons
      obtain ⟨habove, hsorted'⟩ := pairwise_cons.mp hsorted
      rw [decide_eq_true mem_cons_self, nthKept, maskFrom_above] at h
      obtain ⟨j, hj, rfl⟩ := map_eq_some_iff.mp h
      have hrest := ih hsorted' (fun a ha => by
        have := habove a ha
        omega) hj
      rw [shiftAxis_head (by omega), show orig + (s : Int) + 1 = orig + 1 + s by omega, hrest]
      omega
    | inr habove =>
      have hfresh : orig ∉ axes := fun hmem => absurd (habove orig hmem) (lt_irrefl orig)
      rw [decide_eq_false hfresh] at h
      cases s with
      | zero =>
        rw [nthKept] at h
        obtain rfl := Option.some.inj h
        exact shiftAxis_below (by simpa using habove)
      | succ s =>
        rw [nthKept] at h
        obtain ⟨j, hj, rfl⟩ := map_eq_some_iff.mp h
        have hrest := ih hsorted (fun a ha => by
          have := habove a ha
          omega) hj
        rw [show orig + ((s + 1 : Nat) : Int) = orig + 1 + s by push_cast; omega, hrest]
        omega

theorem nthKept_unmarked {mask : List Bool} (h : nthKept mask s = some k) : mask[k]? = some false := by
  fun_induction nthKept mask s generalizing k with
  | case1 s => cases h
  | case2 mask s ih =>
    obtain ⟨j, hj, rfl⟩ := map_eq_some_iff.mp h
    exact ih hj
  | case3 mask =>
    obtain rfl := Option.some.inj h
    rfl
  | case4 mask s ih =>
    obtain ⟨j, hj, rfl⟩ := map_eq_some_iff.mp h
    exact ih hj

theorem nthKept_injective {mask : List Bool} {t : Nat} (h : nthKept mask s = some k) (h' : nthKept mask t = some k) :
    s = t := by
  fun_induction nthKept mask s generalizing t k with
  | case1 s => cases h
  | case2 mask s ih =>
    obtain ⟨j, hj, rfl⟩ := map_eq_some_iff.mp h
    obtain ⟨j', hj', heq⟩ := map_eq_some_iff.mp h'
    obtain rfl := Nat.succ.inj heq
    exact ih hj hj'
  | case3 mask =>
    obtain rfl := Option.some.inj h
    cases t with
    | zero => rfl
    | succ t => simp [nthKept] at h'
  | case4 mask s ih =>
    obtain ⟨j, hj, rfl⟩ := map_eq_some_iff.mp h
    cases t with
    | zero => simp [nthKept] at h'
    | succ t =>
      obtain ⟨j', hj', heq⟩ := map_eq_some_iff.mp h'
      obtain rfl := Nat.succ.inj heq
      rw [ih hj hj']

theorem sorted_of_nodup {as : List Int} (h : as.Nodup) : (as.insertionSort (· ≤ ·)).Pairwise (· < ·) := by
  have hsorted : (as.insertionSort (· ≤ ·)).Pairwise (· ≤ ·) := pairwise_insertionSort _ _
  have hnodup : (as.insertionSort (· ≤ ·)).Nodup := (perm_insertionSort _ _).nodup_iff.mpr h
  exact (hsorted.and hnodup).imp fun h => lt_of_le_of_ne h.1 h.2

section

variable {inner outer : List Int} (hinner : inner.Nodup) (houter : outer.Pairwise (· < ·))
  (hin : ∀ a ∈ inner, 0 ≤ a ∧ a < ((rank - outer.length : Nat) : Int)) (hout : ∀ a ∈ outer, 0 ≤ a ∧ a < (rank : Int))

include houter hin hout

theorem shifted_place {a : Int} (ha : a ∈ inner) :
    ∃ k : Nat, nthKept (maskOf outer rank) a.toNat = some k ∧ shiftAxis outer a = k := by
  have hcount : (maskOf outer rank).count false + outer.length = rank :=
    count_maskFrom houter fun a ha => by simpa using hout a ha
  obtain ⟨hpos, hlt⟩ := hin a ha
  have hsome : (nthKept (maskOf outer rank) a.toNat).isSome := by
    apply nthKept_isSome
    omega
  obtain ⟨k, hk⟩ := isSome_iff_exists.mp hsome
  have hshift := shiftAxis_spec houter (fun a ha => (hout a ha).1) hk
  rw [zero_add, zero_add, Int.toNat_of_nonneg hpos] at hshift
  exact ⟨k, hk, hshift⟩

theorem shifted_mapped : inner.mapM (mapThroughRemovedAxes outer) = some (inner.map (shiftAxis outer)) := by
  have hpoint : ∀ a ∈ inner, mapThroughRemovedAxes outer a = some (shiftAxis outer a) := by
    intro a ha
    obtain ⟨k, hk, hshift⟩ := shifted_place houter hin hout ha
    have hthrough := (mapThrough_spec rank a.toNat houter fun b hb => (hout b hb).1).1 k hk
    rw [mapThroughRemovedAxes, if_neg (not_lt.mpr (hin a ha).1), hthrough, hshift, zero_add]
  clear hin
  induction inner with
  | nil => rfl
  | cons a inner ih =>
    rw [mapM_cons, hpoint a mem_cons_self, ih fun b hb => hpoint b (mem_cons_of_mem a hb)]
    rfl

theorem shifted_range : ∀ b ∈ inner.map (shiftAxis outer) ++ outer, 0 ≤ b ∧ b < (rank : Int) := by
  intro b hb
  cases mem_append.mp hb with
  | inl hb =>
    exact mapped_range houter hout (shifted_mapped houter hin hout) (fun a ha => (hin a ha).2) b hb
  | inr hb => exact hout b hb

include hinner in
theorem shifted_nodup : (inner.map (shiftAxis outer) ++ outer).Nodup := by
  apply nodup_append.mpr
  refine ⟨?_, houter.imp ne_of_lt, ?_⟩
  · apply List.Nodup.map_on _ hinner
    intro a ha b hb heq
    obtain ⟨k, hk, hak⟩ := shifted_place houter hin hout ha
    obtain ⟨j, hj, hbj⟩ := shifted_place houter hin hout hb
    obtain rfl : k = j := by omega
    have hsame := nthKept_injective hk hj
    have ha₀ := (hin a ha).1
    have hb₀ := (hin b hb).1
    omega
  · intro b hb c hc heq
    subst heq
    obtain ⟨a, ha, rfl⟩ := List.mem_map.mp hb
    obtain ⟨k, hk, hak⟩ := shifted_place houter hin hout ha
    have hlt := nthKept_lt hk
    rw [length_maskOf] at hlt
    have hmarked : (maskOf outer rank)[k]? = some true := by
      apply (getElem?_maskFrom k).mpr
      refine ⟨hlt, ?_⟩
      rw [zero_add, ← hak]
      exact hc
    rw [nthKept_unmarked hk] at hmarked
    cases hmarked

theorem shifted_mask : maskOf (inner.map (shiftAxis outer) ++ outer) rank =
    overlay (maskOf outer rank) (maskOf inner (rank - outer.length)) := by
  rw [← maskOf_mapped houter hout (shifted_mapped houter hin hout), maskOf_sortUnique]
  apply maskFrom_congr
  intro a _
  rw [mem_append, mem_append, or_comm]

end

variable {addYIfNegative : Int → Int → Int} (hadd : ∀ a r, addYIfNegative a r = if a < 0 then a + r else a)

include hadd in
theorem normalized_eq {raw : List Int} {n m : Nat} (h : n = m ∨ ∀ a ∈ raw, 0 ≤ a) :
    raw.map (fun a => addYIfNegative a n) = raw.map fun a => addYIfNegative a m := by
  cases h with
  | inl h => rw [h]
  | inr h =>
    apply map_congr_left
    intro a ha
    have hpos := not_lt.mpr (h a ha)
    rw [hadd, hadd, if_neg hpos, if_neg hpos]

theorem maskOf_sorted (as : List Int) (rank : Nat) : maskOf (as.insertionSort (· ≤ ·)) rank = maskOf as rank :=
  maskFrom_congr fun _ _ => mem_insertionSort _

include hadd in
theorem UnsqueezesRun.right (r : UnsqueezesRun addYIfNegative) : r.Right := by
  obtain ⟨ps, hps, hmid⟩ := bind_eq_some_iff.mp r.inner
  obtain ⟨bs, hbs, hout⟩ := bind_eq_some_iff.mp r.outer
  split_ifs at hmid with hpnodup
  split_ifs at hout with hbnodup
  have hmidlen : r.mid.length = r.dims.length + r.axesOfPrev.value.length := by
    rw [length_insertUnits hmid, length_maskOf]
  obtain ⟨hpmap, hprange⟩ := mapM_axisOf hadd hps
  obtain ⟨hbmap, hbrange⟩ := mapM_axisOf hadd hbs
  have hplen : ps.length = r.axesOfPrev.value.length := by rw [hpmap, length_map]
  have hblen : bs.length = r.axes.value.length := by rw [hbmap, length_map]
  rw [hmidlen] at hbmap hbrange hout
  -- The sorted lists that the pass computes are those of the two nodes.
  have hfused : r.fused = ((ps.insertionSort (· ≤ ·)).map (shiftAxis (bs.insertionSort (· ≤ ·))) ++
      bs.insertionSort (· ≤ ·)).insertionSort (· ≤ ·) := by
    obtain ⟨axes, haxes, hrest⟩ := bind_eq_some_iff.mp r.fires
    obtain ⟨prev, hprev, hrest⟩ := bind_eq_some_iff.mp hrest
    obtain rfl := read_eq haxes
    obtain rfl := read_eq hprev
    split_ifs at hrest with hbail
    rw [Option.some.injEq] at hrest
    have hrank : (r.sizes.getD []).length = r.dims.length ∨
        (∀ a ∈ r.axesOfPrev.value, 0 ≤ a) ∧ ∀ a ∈ r.axes.value, 0 ≤ a := by
      cases hsizes : r.sizes with
      | some s => exact .inl (r.recorded s hsizes).length_eq
      | none =>
        rw [hsizes] at hbail
        simp only [isNone_none, Bool.true_and, Bool.or_eq_true, List.any_eq_true, decide_eq_true_eq, not_or,
          not_exists, not_and, not_lt] at hbail
        exact .inr hbail
    have hp := normalized_eq hadd (hrank.imp (congrArg (· + r.axesOfPrev.value.length)) And.left)
    have hb := normalized_eq hadd
      (hrank.imp (congrArg (· + r.axesOfPrev.value.length + r.axes.value.length)) And.right)
    rw [← hrest, hp, hb, ← hpmap, ← hbmap]
  have hpperm := perm_insertionSort (· ≤ ·) ps
  have hbperm := perm_insertionSort (· ≤ ·) bs
  have hlen : r.fused.length = ps.length + bs.length := by
    rw [hfused, length_insertionSort, length_append, length_map, length_insertionSort,
      length_insertionSort]
  have hrank : r.dims.length + r.fused.length =
      r.dims.length + r.axesOfPrev.value.length + r.axes.value.length := by omega
  have houter := sorted_of_nodup hbnodup
  have hinner : (ps.insertionSort (· ≤ ·)).Nodup := hpperm.nodup_iff.mpr hpnodup
  have hbin : ∀ a ∈ bs.insertionSort (· ≤ ·), 0 ≤ a ∧ a < ((r.dims.length + r.fused.length : Nat) : Int) := by
    intro a ha
    rw [hrank]
    exact hbrange a (hbperm.mem_iff.mp ha)
  have hleft : r.dims.length + r.fused.length - (bs.insertionSort (· ≤ ·)).length =
      r.dims.length + r.axesOfPrev.value.length := by
    rw [length_insertionSort]
    omega
  have hpin : ∀ a ∈ ps.insertionSort (· ≤ ·),
      0 ≤ a ∧ a < ((r.dims.length + r.fused.length - (bs.insertionSort (· ≤ ·)).length : Nat) : Int) := by
    intro a ha
    rw [hleft]
    exact hprange a (hpperm.mem_iff.mp ha)
  have hrange : ∀ a ∈ r.fused, 0 ≤ a ∧ a < ((r.dims.length + r.fused.length : Nat) : Int) := by
    intro a ha
    rw [hfused, mem_insertionSort] at ha
    exact shifted_range houter hpin hbin a ha
  have hnodup : r.fused.Nodup := by
    rw [hfused]
    exact (perm_insertionSort _ _).nodup_iff.mpr (shifted_nodup hinner houter hpin hbin)
  have hmask : maskOf r.fused (r.dims.length + r.fused.length) =
      overlay (maskOf bs (r.dims.length + r.fused.length))
        (maskOf ps (r.dims.length + r.axesOfPrev.value.length)) := by
    have hshifted := shifted_mask houter hpin hbin
    rw [← maskOf_sorted, ← hfused, maskOf_sorted, maskOf_sorted, hleft] at hshifted
    exact hshifted
  have hcount : (maskOf ps (r.dims.length + r.axesOfPrev.value.length)).length =
      (maskOf bs (r.dims.length + r.fused.length)).count false := by
    have h := count_maskFrom (i := 0) houter fun a ha => by rw [zero_add]; exact hbin a ha
    have hmask' : maskFrom (bs.insertionSort (· ≤ ·)) 0 (r.dims.length + r.fused.length) =
        maskOf bs (r.dims.length + r.fused.length) := maskOf_sorted bs _
    rw [hmask', length_insertionSort] at h
    rw [length_maskOf]
    omega
  show (r.fused.mapM (axisOf (r.dims.length + r.fused.length))).bind _ = some r.out
  rw [mapM_axisOf_nonneg hrange, bind_some, if_pos hnodup, hmask, insertUnits_overlay hcount, hmid,
    bind_some, hrank]
  exact hout

end Onnxsim.Passes.FusedViews
