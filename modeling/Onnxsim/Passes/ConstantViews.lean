import Onnxsim.Passes.FusedViews
import Onnxsim.Passes.ShapeSlices

namespace Onnxsim.Passes.ConstantViews

open List Option PartialShape.Reshaping FusedViews Views
open ShapeSlices (wrap64)
open Reduce.Exactness Reduce.Fusion
open ShapeRanges.Layout (actualFlatten)

section

def countLoop : List Int → Int → Int
  | [], total => total
  | d :: dims, total => if d < 0 then -1 else countLoop dims (wrap64 (total * d))

def elementCount (dims : List Int) : Int := countLoop dims 1

/-- The loop over the target: the dimensions so far, and the index of the inferred one. -/
def reshapeLoop (allowzero : Bool) (inDims : List Int) :
    Nat → List Int → List Int → Option Nat → Option (List Int × Option Nat)
  | _, [], out, inferAt => some (out, inferAt)
  | i, d :: shape, out, inferAt =>
    if d = 0 ∧ allowzero = false then
      match inDims[i]? with
      | none => none
      | some n => reshapeLoop allowzero inDims (i + 1) shape (out ++ [n]) inferAt
    else if d = -1 then
      if inferAt.isSome then none else reshapeLoop allowzero inDims (i + 1) shape (out ++ [1]) (some i)
    else if d < 0 then none
    else reshapeLoop allowzero inDims (i + 1) shape (out ++ [d]) inferAt

def reshapeSizes (allowzero : Option Int) (shape : Operand) (inDims : List Int) : Option (List Int) :=
  shape.read.bind fun shape =>
    (reshapeLoop (allowzero == some 1) inDims 0 shape [] none).bind fun r =>
      let total := elementCount inDims
      if total < 0 then none
      else
        match r.2 with
        | none => if elementCount r.1 = total then some r.1 else none
        | some inferAt =>
          let rest := elementCount r.1
          if rest ≤ 0 ∨ total % rest ≠ 0 then none
          else
            let out := r.1.set inferAt (total / rest)
            if elementCount out = total then some out else none

/-- The last loop of `SqueezeSizes`. -/
def keepOthers (squeezed : List Int) : Int → List Int → List Int
  | _, [] => []
  | i, d :: dims => if i ∈ squeezed then keepOthers squeezed (i + 1) dims else d :: keepOthers squeezed (i + 1) dims

/-- The last loop of `UnsqueezeSizes`, with the iterations that are left. -/
def insertOnes (inserted : List Int) : Int → Nat → List Int → Option (List Int)
  | _, 0, dims => if dims = [] then some [] else none
  | i, left + 1, dims =>
    if i ∈ inserted then (insertOnes inserted (i + 1) left dims).map (1 :: ·)
    else
      match dims with
      | [] => none
      | d :: dims => (insertOnes inserted (i + 1) left dims).map (d :: ·)

def flattenLoop (axis : Int) : Int → List Int → Int → Int → List Int
  | _, [], outer, inner => [outer, inner]
  | i, d :: dims, outer, inner =>
    if i < axis then flattenLoop axis (i + 1) dims (wrap64 (outer * d)) inner
    else flattenLoop axis (i + 1) dims outer (wrap64 (inner * d))

variable (addYIfNegative : Int → Int → Int)

def squeezeSizes (axes : Option Operand) (inDims : List Int) : Option (List Int) :=
  match axes with
  | none => some (inDims.filter fun d => d ≠ 1)
  | some axes => axes.read.bind fun axes =>
    if axes = [] then none
    else
      let squeezed := axes.mapM fun a =>
        let axis := addYIfNegative a inDims.length
        if axis < 0 ∨ inDims.length ≤ axis ∨ inDims[axis.toNat]? ≠ some 1 then none else some axis
      squeezed.map fun squeezed => keepOthers squeezed 0 inDims

def unsqueezeSizes (axes : Operand) (inDims : List Int) : Option (List Int) :=
  axes.read.bind fun axes =>
    if axes = [] then none
    else
      let outRank := inDims.length + axes.length
      let inserted := axes.mapM fun a =>
        let axis := addYIfNegative a outRank
        if axis < 0 ∨ outRank ≤ axis then none else some axis
      inserted.bind fun inserted =>
        if inserted.dedup.length ≠ axes.length then none else insertOnes inserted 0 outRank inDims

def flattenSizes (axis : Option Int) (inDims : List Int) : Option (List Int) :=
  let axis := addYIfNegative (axis.getD 1) inDims.length
  if axis < 0 ∨ inDims.length < axis then none else some (flattenLoop axis 0 inDims 1 1)

/-- `EliminateReshapeFamilyOnConstant`: the dimensions of the constant that takes the place of the node. -/
def eliminateReshapeFamilyOnConstant (uses : Nat) (graphOutput : Bool) (inDims : List Int) (n : ViewNode) :
    Option (List Int) :=
  if uses ≠ 1 then none
  else if graphOutput then none
  else
    match n with
    | .reshape allowzero shape => reshapeSizes allowzero shape inDims
    | .squeeze axes => squeezeSizes addYIfNegative axes inDims
    | .unsqueeze axes => unsqueezeSizes addYIfNegative axes inDims
    | .flatten axis => flattenSizes addYIfNegative axis inDims

end

def casts (dims : List Nat) : List Int := dims.map (Nat.cast : Nat → Int)

/-- A node on a constant that the pass removes. The constant has as many elements as fit in memory. -/
structure ConstantRun (addYIfNegative : Int → Int → Int) where
  uses : Nat
  graphOutput : Bool
  dims : List Nat
  held : dims.prod < 2 ^ 63
  n : ViewNode
  sizes : List Int
  fires : eliminateReshapeFamilyOnConstant addYIfNegative uses graphOutput (casts dims) n = some sizes

def ConstantRun.Right {addYIfNegative : Int → Int → Int} (r : ConstantRun addYIfNegative) : Prop :=
  ∃ out, r.n.shape r.dims = some out ∧ r.sizes = casts out

/-- The product of the dimensions that a target states or copies. -/
def statedProduct (allowzero : Bool) (dims : List Nat) (target : List Int) : Nat :=
  (((entryDims allowzero dims 0 target).getD []).filterMap id).prod

/-- A product that the pass computes is too large for `int64_t`, and it matters. -/
def Overflows (dims : List Nat) : ViewNode → Prop
  | .reshape allowzero shape =>
    2 ^ 63 ≤ statedProduct (allowzero == some 1) dims shape.value ∧ (-1 ∈ shape.value → dims.prod ≠ 0)
  | .flatten axis => ∃ out, actualFlatten dims (axis.getD 1) = some out ∧ ∃ n ∈ out, 2 ^ 63 ≤ n
  | _ => False

theorem wrap64_eq_iff (n : Nat) : wrap64 n = n ↔ n < 2 ^ 63 := by
  unfold wrap64
  constructor
  · intro h
    have hlt := Int.bmod_lt (x := (n : Int)) (m := 2 ^ 64) (by norm_num)
    rw [h] at hlt
    omega
  · intro h
    apply Int.bmod_eq_of_le <;> omega

theorem wrap64_wrap64_mul (x y : Int) : wrap64 (wrap64 x * y) = wrap64 (x * y) := Int.bmod_mul_bmod

theorem countLoop_casts (l : List Nat) (t : Int) :
    countLoop (casts l) (wrap64 t) = wrap64 (t * (l.prod : Nat)) := by
  induction l generalizing t with
  | nil => simp [casts, countLoop]
  | cons d l ih =>
    have hd : ¬ (d : Int) < 0 := by omega
    have hrest := ih (t * d)
    rw [casts, map_cons, countLoop, if_neg hd, wrap64_wrap64_mul, ← casts, hrest, prod_cons]
    push_cast
    rw [mul_assoc]

theorem elementCount_casts (l : List Nat) : elementCount (casts l) = wrap64 (l.prod : Nat) := by
  have hone : wrap64 1 = 1 := by decide
  rw [elementCount, ← hone, countLoop_casts, one_mul]

variable {sizes : List Int} {allowzero : Bool} {dims : List Nat} {target out : List Int} {i : Nat}

/-- The entries of a target that is accepted: all stated, or all but one. -/
inductive Entries (allowzero : Bool) (dims : List Nat) (i : Nat) (target : List Int) : List Int → Option Nat → Prop
  | stated (vals : List Nat) : entryDims allowzero dims i target = some (vals.map some) → -1 ∉ target →
      Entries allowzero dims i target (casts vals) none
  | inferred (before after : List Nat) :
      entryDims allowzero dims i target = some (before.map some ++ none :: after.map some) → -1 ∈ target →
      Entries allowzero dims i target (casts (before ++ 1 :: after)) (some before.length)

theorem Entries.cons {d : Int} {n : Nat} {inferAt : Option Nat} (hentry : entryDim allowzero dims i d = some (some n))
    (hd : d ≠ -1) (h : Entries allowzero dims (i + 1) target out inferAt) :
    Entries allowzero dims i (d :: target) ((n : Int) :: out) (inferAt.map (· + 1)) := by
  cases h with
  | stated vals hvals hfresh =>
    apply Entries.stated (n :: vals)
    · rw [entryDims, hentry, bind_some, hvals, map_some, map_cons]
    · exact fun hmem => (mem_cons.mp hmem).elim (fun heq => hd heq.symm) hfresh
  | inferred before after hvals hmem =>
    apply Entries.inferred (n :: before) after
    · rw [entryDims, hentry, bind_some, hvals, map_some, map_cons, cons_append]
    · exact mem_cons_of_mem d hmem

theorem reshapeLoop_entries {start : List Int} {seen : Option Nat} {r : List Int × Option Nat}
    (h : reshapeLoop allowzero (casts dims) i target start seen = some r) :
    ∃ rest inferAt, Entries allowzero dims i target rest inferAt ∧ r.1 = start ++ rest ∧
      (seen.isSome → inferAt = none ∧ r.2 = seen) ∧ (seen = none → r.2 = inferAt.map (i + ·)) := by
  fun_induction reshapeLoop allowzero (casts dims) i target start seen with
  | case1 i out seen =>
    obtain rfl := Option.some.inj h
    exact ⟨[], none, .stated [] rfl (by simp), by simp, fun _ => ⟨rfl, rfl⟩, fun hs => by simp [hs]⟩
  | case2 => cases h
  | case3 i d shape out seen hcopy n hn ih =>
    obtain ⟨rest, inferAt, hentries, hr, hseen, hnone⟩ := ih h
    obtain ⟨m, hm, rfl⟩ : ∃ m, dims[i]? = some m ∧ (m : Int) = n := by
      rw [casts, getElem?_map] at hn
      exact map_eq_some_iff.mp hn
    have hentry : entryDim allowzero dims i d = some (some m) := by
      rw [entryDim, if_neg (by omega), if_neg (by omega), if_pos hcopy, hm]
      rfl
    refine ⟨(m : Int) :: rest, inferAt.map (· + 1), hentries.cons hentry (by omega), by simp [hr], ?_, ?_⟩
    · intro hs
      obtain ⟨hinfer, hlast⟩ := hseen hs
      exact ⟨by rw [hinfer]; rfl, hlast⟩
    · intro hs
      rw [hnone hs, Option.map_map]
      congr 1
      funext k
      show i + 1 + k = i + (k + 1)
      omega
  | case4 => cases h
  | case5 i shape out seen hfirst hcopy ih =>
    obtain ⟨rest, inferAt, hentries, hr, hseen, -⟩ := ih h
    obtain ⟨hinferAt, hlast⟩ := hseen rfl
    subst hinferAt
    cases hentries with
    | stated vals hvals hfresh =>
      refine ⟨casts (1 :: vals), some 0, .inferred [] vals ?_ mem_cons_self, ?_, ?_, ?_⟩
      · rw [entryDims, entryDim, if_pos rfl, bind_some, hvals]
        rfl
      · rw [hr]
        simp [casts]
      · intro hs
        exact absurd hs hfirst
      · intro _
        rw [hlast]
        rfl
  | case6 => cases h
  | case7 i d shape out seen hcopy hinfer hneg ih =>
    obtain ⟨rest, inferAt, hentries, hr, hseen, hnone⟩ := ih h
    obtain ⟨m, rfl⟩ := Int.eq_ofNat_of_zero_le (not_lt.mp hneg)
    have hentry : entryDim allowzero dims i (m : Int) = some (some m) := by
      rw [entryDim, if_neg hinfer, if_neg hneg, if_neg hcopy, Int.toNat_natCast]
    refine ⟨(m : Int) :: rest, inferAt.map (· + 1), hentries.cons hentry hinfer, by simp [hr], ?_, ?_⟩
    · intro hs
      obtain ⟨hinferAt, hlast⟩ := hseen hs
      exact ⟨by rw [hinferAt]; rfl, hlast⟩
    · intro hs
      rw [hnone hs, Option.map_map]
      congr 1
      funext k
      show i + 1 + k = i + (k + 1)
      omega

theorem statedProduct_stated {vals : List Nat} (h : entryDims allowzero dims 0 target = some (vals.map some)) :
    statedProduct allowzero dims target = vals.prod := by
  rw [statedProduct, h, getD_some, Views.filterMap_some]

theorem statedProduct_inferred {before after : List Nat}
    (h : entryDims allowzero dims 0 target = some (before.map some ++ none :: after.map some)) :
    statedProduct allowzero dims target = (before ++ after).prod := by
  rw [statedProduct, h, getD_some, filterMap_append, filterMap_cons_none rfl, Views.filterMap_some,
    Views.filterMap_some]

/-- Without overflow the pass agrees with the operator, and with it the operator does not accept the target. -/
theorem reshapeSizes_iff {az : Option Int} {shape : Operand} (held : dims.prod < 2 ^ 63)
    (h : reshapeSizes az shape (casts dims) = some sizes) :
    (∃ out, targetDims (az == some 1) dims shape.value = some out ∧ sizes = casts out) ↔
      ¬ Overflows dims (.reshape az shape) := by
  obtain ⟨target, htarget, h⟩ := bind_eq_some_iff.mp h
  obtain rfl := read_eq htarget
  obtain ⟨r, hloop, h⟩ := bind_eq_some_iff.mp h
  have htotal : elementCount (casts dims) = dims.prod := by
    rw [elementCount_casts]
    exact (wrap64_eq_iff _).mpr held
  obtain ⟨rest, inferAt, hentries, hr₁, -, hr₂⟩ := reshapeLoop_entries hloop
  have hlast := hr₂ rfl
  rw [nil_append] at hr₁
  rw [htotal, hlast, hr₁] at h
  rw [if_neg (by omega)] at h
  cases hentries with
  | stated vals hvals hfresh =>
    rw [map_none, elementCount_casts] at h
    split_ifs at h with hcount
    obtain rfl := Option.some.inj h
    rw [targetDims_stated hvals, Overflows, statedProduct_stated hvals]
    by_cases hlt : vals.prod < 2 ^ 63
    · rw [(wrap64_eq_iff _).mpr hlt] at hcount
      have heq : vals.prod = dims.prod := by exact_mod_cast hcount
      rw [if_pos heq]
      exact iff_of_true ⟨vals, rfl, rfl⟩ fun hover => absurd hover.1 (not_le.mpr hlt)
    · rw [if_neg (by omega)]
      apply iff_of_false
      · rintro ⟨out, hout, -⟩
        cases hout
      · exact fun hnot => hnot ⟨not_lt.mp hlt, fun hmem => absurd hmem hfresh⟩
  | inferred before after hvals hmem =>
    have hone : (before ++ 1 :: after).prod = (before ++ after).prod := by simp
    rw [map_some, elementCount_casts, hone] at h
    dsimp only at h
    rw [zero_add] at h
    split_ifs at h with hbad hcount
    obtain rfl := Option.some.inj h
    rw [targetDims_one_inferred hvals, Overflows, statedProduct_inferred hvals]
    rw [not_or, not_le, not_ne_iff] at hbad
    have hset : ∀ v : Nat, (casts (before ++ 1 :: after)).set before.length (v : Int) =
        casts (before ++ v :: after) := by
      intro v
      rw [casts, map_append, map_cons, set_append_right _ _ (by rw [length_map]),
        length_map, Nat.sub_self, set_cons_zero, casts, map_append, map_cons]
    have hnonzero : (before ++ after).prod ≠ 0 := by
      intro hz
      rw [hz] at hbad
      exact absurd hbad.1 (by decide)
    by_cases hlt : (before ++ after).prod < 2 ^ 63
    · rw [(wrap64_eq_iff _).mpr hlt] at hbad ⊢
      have hdvd : (before ++ after).prod ∣ dims.prod := by
        exact_mod_cast Int.dvd_of_emod_eq_zero hbad.2
      rw [if_pos ⟨hnonzero, hdvd⟩, ← Int.natCast_ediv, hset]
      exact iff_of_true ⟨_, rfl, rfl⟩ fun hover => absurd hover.1 (not_le.mpr hlt)
    · by_cases hempty : dims.prod = 0
      · rw [hempty, if_pos ⟨hnonzero, dvd_zero _⟩, Nat.zero_div, Nat.cast_zero, Int.zero_ediv]
        exact iff_of_true ⟨_, rfl, hset 0⟩ fun hover => hover.2 hmem rfl
      · have hdvd : ¬ (before ++ after).prod ∣ dims.prod := by
          intro hdvd
          have := Nat.le_of_dvd (Nat.pos_of_ne_zero hempty) hdvd
          omega
        rw [if_neg fun hboth => hdvd hboth.2]
        apply iff_of_false
        · rintro ⟨out, hout, -⟩
          cases hout
        · exact fun hnot => hnot ⟨not_lt.mp hlt, fun _ => hempty⟩

variable {as : List Int}

theorem length_casts (dims : List Nat) : (casts dims).length = dims.length := length_map _

theorem keepOthers_casts (i : Int) (h : ∀ k : Nat, k < dims.length → i + k ∈ as → dims[k]? = some 1) :
    ∃ out, removeUnits (maskFrom as i dims.length) dims = some out ∧ keepOthers as i (casts dims) = casts out := by
  induction dims generalizing i with
  | nil => exact ⟨[], rfl, rfl⟩
  | cons d dims ih =>
    obtain ⟨out, hout, hkeep⟩ := ih (i + 1) (by
      intro k hk hmem
      have hnext := h (k + 1) (Nat.succ_lt_succ hk) (by
        push_cast
        rwa [show i + ((k : Int) + 1) = i + 1 + k by omega])
      simpa using hnext)
    rw [casts] at hkeep
    rw [length_cons, maskFrom, casts, map_cons, keepOthers]
    by_cases hmem : i ∈ as
    · have hone : d = 1 := by
        have hfirst := h 0 (Nat.succ_pos _) (by simpa using hmem)
        simpa using hfirst
      rw [decide_eq_true hmem, if_pos hmem, removeUnits, if_pos hone]
      exact ⟨out, hout, hkeep⟩
    · rw [decide_eq_false hmem, if_neg hmem, removeUnits, hout, hkeep]
      exact ⟨d :: out, rfl, rfl⟩

theorem insertOnes_casts (i : Int) (rank : Nat) :
    insertOnes as i rank (casts dims) = (insertUnits (maskFrom as i rank) dims).map casts := by
  induction rank generalizing i dims with
  | zero =>
    cases dims with
    | nil => rfl
    | cons d dims => rfl
  | succ rank ih =>
    unfold insertOnes
    rw [maskFrom]
    by_cases hmem : i ∈ as
    · rw [if_pos hmem, ih, decide_eq_true hmem, insertUnits, Option.map_map, Option.map_map]
      rfl
    · rw [if_neg hmem, decide_eq_false hmem]
      cases dims with
      | nil => rfl
      | cons d dims =>
        rw [casts, map_cons, insertUnits]
        dsimp only
        rw [← casts, ih, Option.map_map, Option.map_map]
        rfl

variable {addYIfNegative : Int → Int → Int} (hadd : ∀ a r, addYIfNegative a r = if a < 0 then a + r else a)

include hadd in
/-- The axes that a loop of the pass accepts are those of the operator, and have what the loop asks for. -/
theorem mapM_accepted {rank : Nat} {raw : List Int} {f : Int → Option Int} {Good : Int → Prop}
    (hf : ∀ a b, f a = some b → b = addYIfNegative a rank ∧ 0 ≤ b ∧ b < rank ∧ Good b) (h : raw.mapM f = some as) :
    raw.mapM (axisOf rank) = some as ∧ ∀ a ∈ as, Good a := by
  induction raw generalizing as with
  | nil =>
    obtain rfl := Option.some.inj h
    exact ⟨rfl, by simp⟩
  | cons a raw ih =>
    simp only [mapM_cons, bind_eq_bind, bind_eq_some_iff, Option.pure_def, Option.some.injEq] at h
    obtain ⟨c, hc, rest, hrest, rfl⟩ := h
    obtain ⟨haxes, hgood⟩ := ih hrest
    obtain ⟨hadded, hpos, hlt, hself⟩ := hf a c hc
    have haxis : axisOf rank a = some c := by
      rw [hadd] at hadded
      unfold axisOf
      by_cases hneg : a < 0
      · rw [if_pos hneg] at hadded
        rw [if_neg (by omega), if_pos ⟨hneg, by omega⟩, hadded]
      · rw [if_neg hneg] at hadded
        rw [if_pos ⟨by omega, by omega⟩, hadded]
    constructor
    · rw [mapM_cons, haxis, haxes]
      rfl
    · intro b hb
      cases mem_cons.mp hb with
      | inl heq =>
        rw [heq]
        exact hself
      | inr hmem => exact hgood b hmem

include hadd in
theorem squeezeSizes_right {axes : Option Operand} (h : squeezeSizes addYIfNegative axes (casts dims) = some sizes) :
    ∃ out, (ViewNode.squeeze axes).shape dims = some out ∧ sizes = casts out := by
  cases axes with
  | none =>
    obtain rfl := Option.some.inj h
    refine ⟨_, rfl, ?_⟩
    rw [casts, casts, List.filter_map]
    congr 1
    apply filter_congr
    intro d _
    simp
  | some axes =>
    obtain ⟨raw, hraw, h⟩ := bind_eq_some_iff.mp h
    obtain rfl := read_eq hraw
    split_ifs at h with hempty
    obtain ⟨as, has, rfl⟩ := map_eq_some_iff.mp h
    have haccepted : axes.value.mapM (axisOf dims.length) = some as ∧
        ∀ a ∈ as, (casts dims)[a.toNat]? = some 1 := by
      apply mapM_accepted hadd _ has
      intro a b hb
      dsimp only at hb
      rw [length_casts] at hb
      split_ifs at hb with hbad
      obtain rfl := Option.some.inj hb
      rw [not_or, not_or, not_lt, not_le, not_ne_iff] at hbad
      exact ⟨rfl, hbad⟩
    obtain ⟨haxes, hunit⟩ := haccepted
    obtain ⟨-, hrange⟩ := mapM_axisOf hadd haxes
    have hones : ∀ k : Nat, k < dims.length → 0 + (k : Int) ∈ as → dims[k]? = some 1 := by
      intro k hk hmem
      rw [zero_add] at hmem
      have hone := hunit k hmem
      rw [Int.toNat_natCast, casts, getElem?_map, map_eq_some_iff] at hone
      obtain ⟨d, hd, hd₁⟩ := hone
      rw [hd]
      exact congrArg some (by omega)
    obtain ⟨out, hout, hkeep⟩ := keepOthers_casts 0 hones
    refine ⟨out, ?_, hkeep⟩
    show (axes.value.mapM (axisOf dims.length)).bind _ = some out
    rw [haxes]
    exact hout

include hadd in
theorem unsqueezeSizes_right {axes : Operand} (h : unsqueezeSizes addYIfNegative axes (casts dims) = some sizes) :
    ∃ out, (ViewNode.unsqueeze axes).shape dims = some out ∧ sizes = casts out := by
  obtain ⟨raw, hraw, h⟩ := bind_eq_some_iff.mp h
  obtain rfl := read_eq hraw
  split_ifs at h with hempty
  obtain ⟨as, has, h⟩ := bind_eq_some_iff.mp h
  split_ifs at h with hdup
  rw [length_casts] at has h
  have haccepted : axes.value.mapM (axisOf (dims.length + axes.value.length)) = some as ∧ ∀ a ∈ as, True := by
    apply mapM_accepted hadd _ has
    intro a b hb
    dsimp only at hb
    split_ifs at hb with hbad
    obtain rfl := Option.some.inj hb
    rw [not_or, not_lt, not_le] at hbad
    exact ⟨rfl, hbad.1, hbad.2, trivial⟩
  obtain ⟨haxes, -⟩ := haccepted
  obtain ⟨hmap, -⟩ := mapM_axisOf hadd haxes
  have hnodup : as.Nodup := by
    have hlen : as.dedup.length = as.length := by
      rw [not_ne_iff.mp hdup, hmap, length_map]
    rw [← (dedup_sublist as).eq_of_length hlen]
    exact nodup_dedup as
  rw [insertOnes_casts] at h
  obtain ⟨out, hout, rfl⟩ := map_eq_some_iff.mp h
  refine ⟨out, ?_, rfl⟩
  show (axes.value.mapM (axisOf (dims.length + axes.value.length))).bind _ = some out
  rw [haxes, bind_some, if_pos hnodup]
  exact hout

theorem flattenLoop_casts (k i : Nat) (outer inner : Int) :
    flattenLoop k i (casts dims) (wrap64 outer) (wrap64 inner) =
      [wrap64 (outer * ((dims.take (k - i)).prod : Nat)), wrap64 (inner * ((dims.drop (k - i)).prod : Nat))] := by
  induction dims generalizing i outer inner with
  | nil => simp [casts, flattenLoop]
  | cons d dims ih =>
    rw [casts, map_cons, flattenLoop, ← casts, wrap64_wrap64_mul, wrap64_wrap64_mul]
    have hnext : (i : Int) + 1 = ((i + 1 : Nat) : Int) := by push_cast; rfl
    by_cases hlt : i < k
    · obtain ⟨j, hj⟩ : ∃ j, k - i = j + 1 := ⟨k - i - 1, by omega⟩
      have hj' : k - (i + 1) = j := by omega
      rw [if_pos (by exact_mod_cast hlt), hnext, ih, hj, hj', take_succ_cons, drop_succ_cons, prod_cons]
      push_cast
      rw [mul_assoc]
    · have hj : k - i = 0 := by omega
      have hj' : k - (i + 1) = 0 := by omega
      rw [if_neg (by exact_mod_cast hlt), hnext, ih, hj, hj', take_zero, drop_zero, take_zero,
        drop_zero, prod_cons]
      push_cast
      rw [mul_assoc]

include hadd in
theorem flattenSizes_iff {axis : Option Int} (h : flattenSizes addYIfNegative axis (casts dims) = some sizes) :
    (∃ out, actualFlatten dims (axis.getD 1) = some out ∧ sizes = casts out) ↔ ¬ Overflows dims (.flatten axis) := by
  unfold flattenSizes at h
  dsimp only at h
  rw [length_casts] at h
  split_ifs at h with hrange
  rw [Option.some.injEq] at h
  rw [not_or, not_lt, not_lt] at hrange
  obtain ⟨k, hk⟩ := Int.eq_ofNat_of_zero_le hrange.1
  have hactual : actualFlatten dims (axis.getD 1) = some [(dims.take k).prod, (dims.drop k).prod] := by
    rw [hadd] at hrange hk
    unfold actualFlatten
    by_cases hneg : axis.getD 1 < 0
    · rw [if_pos hneg] at hrange hk
      rw [if_neg (by omega), if_pos ⟨by omega, hneg⟩, show ((dims.length : Int) + axis.getD 1).toNat = k by omega]
    · rw [if_neg hneg] at hrange hk
      rw [if_pos ⟨by omega, hrange.2⟩, show (axis.getD 1).toNat = k by omega]
  have hone : wrap64 1 = 1 := by decide
  have hsizes : sizes = [wrap64 ((dims.take k).prod : Nat), wrap64 ((dims.drop k).prod : Nat)] := by
    have hloop : flattenLoop k (0 : Nat) (casts dims) (wrap64 1) (wrap64 1) = _ := flattenLoop_casts k 0 1 1
    rw [hone, one_mul, one_mul, Nat.sub_zero, Nat.cast_zero] at hloop
    rw [← h, hk]
    exact hloop
  have hfits : sizes = casts [(dims.take k).prod, (dims.drop k).prod] ↔
      (dims.take k).prod < 2 ^ 63 ∧ (dims.drop k).prod < 2 ^ 63 := by
    rw [hsizes, ← wrap64_eq_iff, ← wrap64_eq_iff]
    simp [casts]
  rw [Overflows, hactual]
  simp only [Option.some.injEq, exists_eq_left', mem_cons, not_mem_nil, or_false, exists_eq_or_imp,
    exists_eq_left, not_or, not_le]
  exact hfits

include hadd in
theorem ConstantRun.right_iff (r : ConstantRun addYIfNegative) : r.Right ↔ ¬ Overflows r.dims r.n := by
  have hfires := r.fires
  unfold eliminateReshapeFamilyOnConstant at hfires
  split_ifs at hfires
  unfold ConstantRun.Right
  cases hn : r.n with
  | reshape allowzero shape =>
    rw [hn] at hfires
    exact reshapeSizes_iff r.held hfires
  | squeeze axes =>
    rw [hn] at hfires
    exact iff_of_true (squeezeSizes_right hadd hfires) (fun hover => hover)
  | unsqueeze axes =>
    rw [hn] at hfires
    exact iff_of_true (unsqueezeSizes_right hadd hfires) (fun hover => hover)
  | flatten axis =>
    rw [hn] at hfires
    exact flattenSizes_iff hadd hfires

/-- A use of one of the four passes. -/
inductive Rewrite (addYIfNegative : Int → Int → Int) where
  | reshapes (run : ReshapesRun)
  | family (run : FamilyRun)
  | unsqueezes (run : UnsqueezesRun addYIfNegative)
  | constant (run : ConstantRun addYIfNegative)

/-- The node or constant that a pass leaves is valid, with the shape of the output before. -/
def Rewrite.Right {addYIfNegative : Int → Int → Int} : Rewrite addYIfNegative → Prop
  | .reshapes run => run.Right
  | .family run => run.Right
  | .unsqueezes run => run.Right
  | .constant run => run.Right

/-- A Reshape of a graph that knows none with the shape as an input, or a constant whose sizes overflow. -/
def Rewrite.Flawed {addYIfNegative : Int → Int → Int} : Rewrite addYIfNegative → Prop
  | .reshapes _ => False
  | .family run => run.opset < 5
  | .unsqueezes _ => False
  | .constant run => Overflows run.dims run.n

theorem view_rewrites_right_iff (hadd : ∀ a r, addYIfNegative a r = if a < 0 then a + r else a)
    (rewrite : Rewrite addYIfNegative) : rewrite.Right ↔ ¬ rewrite.Flawed := by
  cases rewrite with
  | reshapes run => exact iff_of_true run.right (fun h => h)
  | family run => exact run.right_iff.trans not_lt.symm
  | unsqueezes run => exact iff_of_true (run.right hadd) (fun h => h)
  | constant run => exact run.right_iff hadd

def addIfNegative (a r : Int) : Int := if a < 0 then a + r else a

theorem unsorted_unsqueezes_fused : ∃ run : UnsqueezesRun addIfNegative,
    run.axesOfPrev.value = [-1] ∧ run.axes.value = [-3, 0] ∧ run.dims = [2, 3] ∧ run.fused = [0, 2, 4] ∧
      (Rewrite.unsqueezes run).Right :=
  ⟨⟨⟨[-1], true⟩, ⟨[-3, 0], true⟩, some [.size 2, .param "n"], fun _ => 3, [2, 3], [2, 3, 1], [1, 2, 1, 3, 1],
    by decide, by decide, fun s hs => by
      obtain rfl := Option.some.inj hs
      exact .cons rfl (.cons rfl .nil), [0, 2, 4], by decide⟩, rfl, rfl, rfl, rfl,
    (view_rewrites_right_iff (fun _ _ => rfl) _).mpr fun h => h⟩

/-- A Reshape of one element to a shape with 2⁶⁴ + 1 elements is carried out. -/
theorem overflowing_reshape_removed : ∃ run : ConstantRun addIfNegative,
    run.dims = [1] ∧ run.n = .reshape none ⟨[274177, 67280421310721], true⟩ ∧
      run.n.shape run.dims = none ∧ run.sizes = [274177, 67280421310721] ∧ ¬ (Rewrite.constant run).Right := by
  refine ⟨⟨1, false, [1], by decide, .reshape none ⟨[274177, 67280421310721], true⟩, [274177, 67280421310721],
    by decide⟩, rfl, rfl, by decide, rfl, ?_⟩
  rintro ⟨out, hout, -⟩
  have hnone : (ViewNode.reshape none ⟨[274177, 67280421310721], true⟩).shape [1] = none := by decide
  rw [hnone] at hout
  cases hout

end Onnxsim.Passes.ConstantViews
