import Onnxsim.Reduce.Exactness
import Onnxsim.ShapeRanges.LayoutSound

namespace Onnxsim.Passes.Views

open List Option PartialShape.Reshaping Reduce.Axes Reduce.Fusion
open ShapeRanges.Layout (actualFlatten)

/-- An operand of a node with its value at run time, which a pass sees where it is a constant. -/
structure Operand where
  value : List Int
  constant : Bool
deriving DecidableEq, Repr

def Operand.read (o : Operand) : Option (List Int) := if o.constant then some o.value else none

/-- The operators that keep the elements and change the shape. Axes given as an attribute are a constant operand. -/
inductive ViewNode where
  | reshape (allowzero : Option Int) (shape : Operand)
  | squeeze (axes : Option Operand)
  | unsqueeze (axes : Operand)
  | flatten (axis : Option Int)
deriving DecidableEq, Repr

/-- The shape that a node gives to a tensor of the shape `dims`, if the node is valid there. -/
def ViewNode.shape (node : ViewNode) (dims : List Nat) : Option (List Nat) :=
  match node with
  | .reshape allowzero target => ReshapeLike.shape (.reshape (allowzero == some 1) target.value) dims
  | .squeeze axes => ReshapeLike.shape (.squeeze (axes.map Operand.value)) dims
  | .unsqueeze axes => ReshapeLike.shape (.unsqueeze axes.value) dims
  | .flatten axis => actualFlatten dims (axis.getD 1)

variable {ds : List (Option Nat)} {mask : List Bool} {dims out : List Nat}

theorem prod_inferred (h : ds.count none = 1) (n : Nat) :
    (ds.map fun d => d.getD n).prod = (ds.filterMap id).prod * n := by
  induction ds with
  | nil => simp at h
  | cons d ds ih =>
    cases d with
    | none =>
      have hnone : ds.count none = 0 := by simpa using h
      have hsome : ∀ d ∈ ds, ∃ v, d = some v := by
        intro d hd
        apply ne_none_iff_exists'.mp
        rintro rfl
        exact count_eq_zero.mp hnone hd
      have hrest : (ds.map fun d => d.getD n) = ds.filterMap id := by
        clear h ih hnone
        induction ds with
        | nil => rfl
        | cons d ds ih =>
          obtain ⟨v, rfl⟩ := hsome d mem_cons_self
          have htail := ih fun e he => hsome e (mem_cons_of_mem _ he)
          simp [htail]
      simp [hrest, Nat.mul_comm]
    | some v =>
      have htail := ih (by simpa using h)
      simp [htail, Nat.mul_assoc]

theorem prod_targetDims {allowzero : Bool} {target : List Int} (h : targetDims allowzero dims target = some out) :
    out.prod = dims.prod := by
  unfold targetDims at h
  obtain ⟨ds, -, h⟩ := bind_eq_some_iff.mp h
  dsimp only at h
  split_ifs at h with h₁ h₂ h₃ h₄ h₅
  · obtain rfl := Option.some.inj h
    exact h₂
  · obtain rfl := Option.some.inj h
    rw [prod_inferred h₃, Nat.mul_div_cancel' h₅.2]

theorem prod_without_units (dims : List Nat) : (dims.filter fun d => d ≠ 1).prod = dims.prod := by
  induction dims with
  | nil => rfl
  | cons d dims ih =>
    by_cases hd : d = 1
    · subst hd
      simpa using ih
    · rw [filter_cons_of_pos (by simpa using hd), prod_cons, prod_cons, ih]

theorem prod_removeUnits (h : removeUnits mask dims = some out) : out.prod = dims.prod := by
  fun_induction removeUnits mask dims generalizing out with
  | case1 dims =>
    obtain rfl := Option.some.inj h
    rfl
  | case2 b mask => cases h
  | case3 mask dims ih => simpa using ih h
  | case4 mask d dims hd => cases h
  | case5 mask d dims ih =>
    obtain ⟨rest, hrest, rfl⟩ := map_eq_some_iff.mp h
    rw [prod_cons, prod_cons, ih hrest]

theorem prod_insertUnits (h : insertUnits mask dims = some out) : out.prod = dims.prod := by
  fun_induction insertUnits mask dims generalizing out with
  | case1 =>
    obtain rfl := Option.some.inj h
    rfl
  | case2 d dims => cases h
  | case3 mask dims ih =>
    obtain ⟨rest, hrest, rfl⟩ := map_eq_some_iff.mp h
    rw [prod_cons, ih hrest, one_mul]
  | case4 mask => cases h
  | case5 mask d dims ih =>
    obtain ⟨rest, hrest, rfl⟩ := map_eq_some_iff.mp h
    rw [prod_cons, prod_cons, ih hrest]

theorem prod_actualFlatten {axis : Int} (h : actualFlatten dims axis = some out) : out.prod = dims.prod := by
  unfold actualFlatten at h
  split_ifs at h with hpos hneg
  · obtain rfl := Option.some.inj h
    rw [prod_pair, ← prod_append, take_append_drop]
  · obtain rfl := Option.some.inj h
    rw [prod_pair, ← prod_append, take_append_drop]

theorem ViewNode.shape_prod {node : ViewNode} (h : node.shape dims = some out) : out.prod = dims.prod := by
  cases node with
  | reshape allowzero target => exact prod_targetDims h
  | squeeze axes =>
    cases axes with
    | none =>
      obtain rfl := Option.some.inj h
      exact prod_without_units dims
    | some axes =>
      obtain ⟨as, -, hout⟩ := bind_eq_some_iff.mp h
      exact prod_removeUnits hout
  | unsqueeze axes =>
    obtain ⟨as, -, hout⟩ := bind_eq_some_iff.mp h
    split_ifs at hout with hnodup
    exact prod_insertUnits hout
  | flatten axis => exact prod_actualFlatten h

variable {dims' : List Nat} {target : List Int} {allowzero : Bool}

theorem entryDims_uncopied (h : allowzero = true ∨ 0 ∉ target) (i : Nat) :
    entryDims allowzero dims i target = entryDims allowzero dims' i target := by
  induction target generalizing i with
  | nil => rfl
  | cons v target ih =>
    have hrest : allowzero = true ∨ 0 ∉ target := by
      apply h.imp_right
      exact fun hv hmem => hv (mem_cons_of_mem v hmem)
    have hcopy : ¬ (v = 0 ∧ allowzero = false) := by
      rintro ⟨rfl, hz⟩
      cases h with
      | inl h => simp [hz] at h
      | inr h => exact h mem_cons_self
    rw [entryDims, entryDims, ih hrest, entryDim, entryDim, if_neg hcopy, if_neg hcopy]

theorem targetDims_uncopied (h : allowzero = true ∨ 0 ∉ target) (hprod : dims'.prod = dims.prod) :
    targetDims allowzero dims' target = targetDims allowzero dims target := by
  unfold targetDims
  rw [entryDims_uncopied h 0, hprod]

variable {i : Nat}

theorem entryDims_spelled (h : allowzero = true ∨ ∀ j : Nat, out[j]? = some 0 → dims[i + j]? = some 0) :
    entryDims allowzero dims i (out.map (Nat.cast : Nat → Int)) = some (out.map some) := by
  induction out generalizing i with
  | nil => rfl
  | cons n out ih =>
    have hrest : allowzero = true ∨ ∀ j : Nat, out[j]? = some 0 → dims[i + 1 + j]? = some 0 := by
      apply h.imp_right
      intro hzero j hj
      have := hzero (j + 1) hj
      rwa [show i + 1 + j = i + (j + 1) by omega]
    rw [map_cons, entryDims, ih hrest, entryDim, if_neg (by omega), if_neg (by omega)]
    by_cases hcopy : (n : Int) = 0 ∧ allowzero = false
    · obtain ⟨hn, hz⟩ := hcopy
      obtain rfl : n = 0 := by omega
      have hdim : dims[i]? = some 0 := by
        cases h with
        | inl h => simp [hz] at h
        | inr h => exact h 0 rfl
      rw [if_pos ⟨rfl, hz⟩, hdim]
      rfl
    · rw [if_neg hcopy]
      simp

theorem entryDims_literal (h : allowzero = true ∨ 0 ∉ out) :
    entryDims allowzero dims i (out.map (Nat.cast : Nat → Int)) = some (out.map some) := by
  apply entryDims_spelled
  apply h.imp_right
  exact fun hfresh j hj => absurd (mem_of_getElem? hj) hfresh

theorem toNat_casts (l : List Nat) : (l.map (Nat.cast : Nat → Int)).map Int.toNat = l := by
  rw [List.map_map]
  exact List.map_id l

theorem filterMap_some (l : List Nat) : (l.map some).filterMap id = l := by
  rw [filterMap_map]
  exact List.filterMap_some

theorem count_some (l : List Nat) : (l.map some).count none = 0 := count_eq_zero.mpr (by simp)

theorem targetDims_stated {vals : List Nat} (h : entryDims allowzero dims 0 target = some (vals.map some)) :
    targetDims allowzero dims target = if vals.prod = dims.prod then some vals else none := by
  rw [targetDims, h, bind_some]
  rw [if_pos (count_some vals), filterMap_some]

theorem zero_mem_entries (h : entryDims true dims i target = some ds) (hz : 0 ∈ target) : some 0 ∈ ds := by
  induction target generalizing i ds with
  | nil => cases hz
  | cons v target ih =>
    rw [entryDims] at h
    obtain ⟨d, hd, hrest⟩ := bind_eq_some_iff.mp h
    obtain ⟨es, hes, rfl⟩ := map_eq_some_iff.mp hrest
    cases mem_cons.mp hz with
    | inl hv =>
      subst hv
      obtain rfl : some 0 = d := Option.some.inj hd
      exact mem_cons_self
    | inr hmem => exact mem_cons_of_mem d (ih hes hmem)

theorem targetDims_one_inferred {before after : List Nat}
    (h : entryDims allowzero dims 0 target = some (before.map some ++ none :: after.map some)) :
    targetDims allowzero dims target =
      if (before ++ after).prod ≠ 0 ∧ (before ++ after).prod ∣ dims.prod then
        some (before ++ dims.prod / (before ++ after).prod :: after) else none := by
  have hknown : ((before.map some ++ none :: after.map some).filterMap id).prod = (before ++ after).prod := by
    rw [filterMap_append, filterMap_cons_none rfl, filterMap_some, filterMap_some]
  have hcount : (before.map some ++ none :: after.map some).count none = 1 := by
    rw [count_append, count_cons_self, count_some, count_some]
  rw [targetDims, h, bind_some]
  rw [hcount, hknown, if_neg one_ne_zero, if_pos rfl]
  by_cases hzero : allowzero = true ∧ 0 ∈ target
  · obtain ⟨rfl, hmem⟩ := hzero
    have hin : 0 ∈ before ++ after := by
      have := zero_mem_entries h hmem
      simpa using this
    rw [if_pos ⟨rfl, hmem⟩, if_neg fun hne => hne.1 (prod_eq_zero hin)]
  · rw [if_neg hzero]
    simp [Function.comp_def]

/-- Size-1 axes inserted one set after the other are inserted together, the first set at its places among the axes that
the second one leaves. -/
theorem insertUnits_overlay {maskA maskB : List Bool} (hlen : maskB.length = maskA.count false) (dims : List Nat) :
    insertUnits (overlay maskA maskB) dims = (insertUnits maskB dims).bind (insertUnits maskA) := by
  induction maskA generalizing maskB dims with
  | nil =>
    obtain rfl := length_eq_zero_iff.mp hlen
    rw [overlay]
    cases dims with
    | nil => rfl
    | cons d dims => rfl
  | cons a maskA ih =>
    cases a with
    | true =>
      rw [count_cons_of_ne (by simp)] at hlen
      rw [overlay, insertUnits, ih hlen, Option.map_bind]
      apply Option.bind_congr
      intro mid hmid
      cases mid with
      | nil => rfl
      | cons d mid => rfl
    | false =>
      rw [count_cons_self] at hlen
      cases maskB with
      | nil => simp at hlen
      | cons b maskB =>
        have hrest := fun dims => @ih maskB (Nat.succ.inj hlen) dims
        cases b with
        | true =>
          rw [overlay, insertUnits, insertUnits, hrest, Option.map_bind, bind_map]
          rfl
        | false =>
          cases dims with
          | nil => rfl
          | cons d dims =>
            rw [overlay, insertUnits, insertUnits, hrest, Option.map_bind, bind_map]
            rfl

theorem length_insertUnits {dims out : List Nat} (h : insertUnits mask dims = some out) :
    out.length = mask.length := by
  fun_induction insertUnits mask dims generalizing out with
  | case1 =>
    obtain rfl := Option.some.inj h
    rfl
  | case2 d dims => cases h
  | case3 mask dims ih =>
    obtain ⟨rest, hrest, rfl⟩ := map_eq_some_iff.mp h
    rw [length_cons, length_cons, ih hrest]
  | case4 mask => cases h
  | case5 mask d dims ih =>
    obtain ⟨rest, hrest, rfl⟩ := map_eq_some_iff.mp h
    rw [length_cons, length_cons, ih hrest]

end Onnxsim.Passes.Views
