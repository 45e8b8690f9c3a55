import Mathlib.Algebra.BigOperators.Ring.Finset
import Mathlib.Algebra.Order.BigOperators.Group.List
import Onnxsim.Passes.Gathers

namespace Onnxsim.Passes.ConstantGathers

open List Option Overflow.Arrays Gathers
open Reduce.Fusion (Dimension)

inductive ElemType where
  | int32
  | int64
  | other
deriving DecidableEq

/-- A constant tensor with the values that are parsed from its data. -/
structure Constant where
  elemType : ElemType
  sizes : List Nat
  vals : List Int
  int32_range : elemType = .int32 → ∀ v ∈ vals, -(2 ^ 31) ≤ v ∧ v < 2 ^ 31
deriving DecidableEq

/-- A node with two operands; the sizes are none when the rank is not known, and so is an index operand that is
not a constant. -/
structure IndexNode where
  kind : String
  domain : String
  inputs : Nat
  outputs : Nat
  axis : Option Int
  dataSizes : Option (List Dimension)
  indexSizes : Option (List Dimension)
  indices : Option Constant

/-- Reading past the end of a vector is undefined. -/
inductive Outcome where
  | declined
  | outOfBounds
  | gather (axis : Int) (indices : List Int)
deriving DecidableEq

def strides : List Nat → List Nat
  | [] => []
  | [_] => [1]
  | _ :: n :: shape => (strides (n :: shape)).headD 1 * n :: strides (n :: shape)

/-- The scan stops at the first element that differs from its representative. -/
def scan (vals : List Int) (axisStride axisLen : Nat) : List Nat → Option Bool
  | [] => some true
  | i :: is =>
    match vals[i]?, vals[i / axisStride % axisLen * axisStride]? with
    | some v, some rep => if v = rep then scan vals axisStride axisLen is else some false
    | _, _ => none

def representative (vals : List Int) (axisStride axisLen : Nat) : Option (List Int) :=
  (List.range axisLen).mapM fun kk => vals[kk * axisStride]?

def normAxis (axis r : Int) : Int := if axis < 0 then axis + r else axis

def checkedConstant (node : IndexNode) : Option Constant :=
  match node.dataSizes, node.indexSizes, node.indices with
  | some data, some idx, some t =>
    if node.kind = "GatherElements" ∧ node.domain = "" ∧ node.inputs = 2 ∧ node.outputs = 1 ∧ data ≠ [] ∧
        data.length = idx.length ∧ t.elemType ≠ .other ∧ 0 ≤ normAxis (node.axis.getD 0) data.length ∧
        normAxis (node.axis.getD 0) data.length < data.length ∧ t.sizes.length = data.length ∧
        t.vals.length = t.sizes.prod then
      some t
    else none
  | _, _, _ => none

def rewriteGatherElementsToGather (node : IndexNode) : Outcome :=
  match checkedConstant node with
  | none => .declined
  | some t =>
    let k := (normAxis (node.axis.getD 0) t.sizes.length).toNat
    let axisStride := (strides t.sizes).getD k 0
    let axisLen := t.sizes.getD k 0
    match scan t.vals axisStride axisLen (List.range t.sizes.prod) with
    | none => .outOfBounds
    | some false => .declined
    | some true =>
      match representative t.vals axisStride axisLen with
      | none => .outOfBounds
      | some is => .gather (node.axis.getD 0) is

/-- A Gather from the output of a Concat. -/
structure ConcatGather where
  node : IndexNode
  producerKind : String
  concatAxis : Int
  concatSizes : List (Option (List Dimension))

/-- `offset` is where the first of the sizes begins. -/
def segmentOf (norm : Int) : Int → List Int → Nat
  | offset, s :: next :: sizes =>
    if offset + s ≤ norm then segmentOf norm (offset + s) (next :: sizes) + 1 else 0
  | _, _ => 0

def resolveLoop (addYIfNegative : Int → Int → Int) (axisSizes : List Int) :
    Option Nat → List Int → Option (Option Nat × List Int)
  | seg, [] => some (seg, [])
  | seg, idx :: rest =>
    let norm := addYIfNegative idx axisSizes.sum
    let found := segmentOf norm 0 axisSizes
    if norm < 0 ∨ axisSizes.sum ≤ norm then none
    else if seg ≠ none ∧ seg ≠ some found then none
    else
      (resolveLoop addYIfNegative axisSizes (some found) rest).map fun r =>
        (r.1, (norm - (axisSizes.take found).sum) :: r.2)

def resolveSingleSegment (addYIfNegative : Int → Int → Int) (indices axisSizes : List Int) : Option (Nat × List Int) :=
  match resolveLoop addYIfNegative axisSizes none indices with
  | some (some seg, locals) => some (seg, locals)
  | _ => none

def axisSize (r : Nat) (ca : Int) (sizes : Option (List Dimension)) : Option Int :=
  match sizes with
  | some ds =>
    if ds.length = r then
      match ds[ca.toNat]? with
      | some (.size d) => some d
      | _ => none
    else none
  | none => none

/-- The sizes of the operands along the axis that a Gather and a Concat share. -/
def sharedAxisSizes (addYIfNegative : Int → Int → Int) (c : ConcatGather) : Option (List Int) :=
  match c.node.dataSizes with
  | some data =>
    let ga := addYIfNegative (c.node.axis.getD 0) data.length
    let ca := addYIfNegative c.concatAxis data.length
    if c.node.kind = "Gather" ∧ c.producerKind = "Concat" ∧ c.node.inputs = 2 ∧ c.node.outputs = 1 ∧ c.node.domain = "" ∧
        2 ≤ c.concatSizes.length ∧ 0 ≤ ga ∧ ga < data.length ∧ ga = ca then
      c.concatSizes.mapM (axisSize data.length ca)
    else none
  | none => none

/-- A conversion to `int32_t`. -/
def wrap32 (x : Int) : Int := Int.bmod x (2 ^ 32)

theorem wrap32_range (x : Int) : -(2 ^ 31) ≤ wrap32 x ∧ wrap32 x < 2 ^ 31 := by
  have h₁ := Int.le_bmod (x := x) (m := 2 ^ 32) (by decide)
  have h₂ := Int.bmod_lt (x := x) (m := 2 ^ 32) (by decide)
  unfold wrap32
  omega

def storedVals (elemType : ElemType) (locals : List Int) : List Int :=
  if elemType = .int32 then locals.map wrap32 else locals

theorem storedVals_range (elemType : ElemType) (locals : List Int) (h : elemType = .int32) :
    ∀ v ∈ storedVals elemType locals, -(2 ^ 31) ≤ v ∧ v < 2 ^ 31 := by
  intro v hv
  rw [storedVals, if_pos h] at hv
  obtain ⟨x, -, rfl⟩ := List.mem_map.mp hv
  exact wrap32_range x

def shifted (t : Constant) (locals : List Int) : Constant :=
  ⟨t.elemType, t.sizes, storedVals t.elemType locals, storedVals_range t.elemType locals⟩

/-- The operand of the Concat that is gathered from instead, and the new indices. -/
def rewriteGatherOverConcat (addYIfNegative : Int → Int → Int) (c : ConcatGather) : Option (Nat × Constant) :=
  match sharedAxisSizes addYIfNegative c, c.node.indices with
  | some axisSizes, some t =>
    if t.elemType = .other then none
    else
      (resolveSingleSegment addYIfNegative t.vals axisSizes).map fun r => (r.1, shifted t r.2)
  | _, _ => none

/-- Indices and data agree on all axes but one, along which every element of the result has an index of its own. -/
def gatherElements {α : Type} [Inhabited α] (axis : Int) (data : NDArray α) (idx : NDArray Int) : Option (NDArray α) :=
  (place data.shape.length axis).bind fun k =>
    if idx.shape = data.shape.set k (idx.shape.getD k 0) ∧ ∀ i ∈ idx.data, (place (data.shape.getD k 0) i).isSome then
      some (NDArray.ofFn idx.shape fun p => readAt data (p.set k ((place (data.shape.getD k 0) (readAt idx p)).getD 0)))
    else none

def vector (l : List Int) : NDArray Int := ⟨[l.length], l, prod_singleton.symm⟩

def Holds (t : Constant) (idx : NDArray Int) : Prop := idx.shape = t.sizes ∧ idx.data = t.vals

/-- No read is out of bounds, and a Gather that is emitted gives what the node gives. -/
structure ElementsCorrect (o : Outcome) (node : IndexNode) : Prop where
  inBounds : o ≠ .outOfBounds
  same : ∀ axis is, o = .gather axis is → ∀ (α : Type) [Inhabited α] (data y : NDArray α) (idx : NDArray Int) t,
    node.indices = some t → Holds t idx → gatherElements (node.axis.getD 0) data idx = some y →
      gather axis data (vector is) = some y

/-- The operands of a Concat, of one rank and with the given sizes along the axis. -/
def Operands {α : Type} (r : Nat) (k : Nat) (axisSizes : List Int) (xs : List (NDArray α)) : Prop :=
  List.Forall₂ (fun x (s : Int) => x.shape.length = r ∧ (x.shape.getD k 0 : Int) = s) xs axisSizes

/-- Gathering from one operand gives what gathering from all of them gives. -/
def OverConcatCorrect (c : ConcatGather) (r : Nat) (k : Nat) (axisSizes : List Int) (t : Constant)
    (result : Nat × Constant) : Prop :=
  ∀ (α : Type) [Inhabited α] (xs : List (NDArray α)) (whole y : NDArray α) (idx idx' : NDArray Int),
    Operands r k axisSizes xs → concat c.concatAxis xs = some whole → Holds t idx → Holds result.2 idx' →
      gather (c.node.axis.getD 0) whole idx = some y →
        ∃ x, xs[result.1]? = some x ∧ gather (c.node.axis.getD 0) x idx' = some y

/-- An `int32_t` index that the shift keeps, or that moves by whole turns of the segment. -/
def Fits (axisSizes : List Int) (seg : Nat) (t : Constant) : Prop :=
  t.elemType = .int32 → ∀ v ∈ t.vals, 0 ≤ v ∨ v + (axisSizes.drop seg).sum < 2 ^ 31 ∨ 2 ^ 32 ∣ axisSizes.getD seg 0

variable {post pre : List Nat} {m i k seg : Nat} {α : Type} {idx : NDArray Int} {axis loc : Int} {locals : List Int}

section

variable {vals is : List Int} {axisStride axisLen : Nat}

theorem strides_getD : (strides (pre ++ m :: post)).getD pre.length 0 = post.prod := by
  have hhead : ∀ (n : Nat) (shape : List Nat), (strides (n :: shape)).headD 1 = shape.prod := by
    intro n shape
    induction shape generalizing n with
    | nil => rfl
    | cons n' shape ih =>
      rw [strides, headD_cons, ih, prod_cons, Nat.mul_comm]
  induction pre with
  | nil =>
    have := hhead m post
    cases post with
    | nil => rfl
    | cons n post => exact this
  | cons n pre ih =>
    cases pre with
    | nil => exact ih
    | cons n' pre => exact ih

theorem offset_append {s s' a b : List Nat} {A B : Nat} (ha : offset s a = some A) (hb : offset s' b = some B) :
    offset (s ++ s') (a ++ b) = some (A * s'.prod + B) := by
  induction s generalizing a A with
  | nil =>
    cases a with
    | nil =>
      cases ha
      simpa using hb
    | cons i a => cases ha
  | cons n s ih =>
    cases a with
    | nil => cases ha
    | cons i a =>
      rw [offset] at ha
      split at ha
      · next hi =>
        obtain ⟨A', hA', rfl⟩ := map_eq_some_iff.mp ha
        rw [cons_append, cons_append, offset, if_pos hi, ih hA', map_some, prod_append]
        congr 1
        ring
      · cases ha

theorem offset_mid {a c : List Nat} (ha : a ∈ indices pre) (hi : i < m) (hc : c ∈ indices post) :
    ∃ o, offset (pre ++ m :: post) (a ++ i :: c) = some o ∧ o < (pre ++ m :: post).prod ∧ o / post.prod % m = i := by
  obtain ⟨A, -, hA⟩ := offset_of_mem_indices ha
  obtain ⟨C, hClt, hC⟩ := offset_of_mem_indices hc
  have hmid : offset (m :: post) (i :: c) = some (i * post.prod + C) := by
    rw [offset, if_pos hi, hC, map_some]
  obtain ⟨o, ho, hoff⟩ := offset_of_mem_indices (mid_mem_indices ha hi hc)
  refine ⟨o, hoff, ho, ?_⟩
  rw [offset_append hA hmid, Option.some.injEq] at hoff
  have hpos : 0 < post.prod := by omega
  have hdiv : o / post.prod = A * m + i := by
    rw [← hoff, prod_cons, show A * (m * post.prod) + (i * post.prod + C) = C + post.prod * (A * m + i) by ring,
      Nat.add_mul_div_left _ _ hpos, Nat.div_eq_of_lt hClt, Nat.zero_add]
  rw [hdiv, Nat.mul_add_mod_self_right, Nat.mod_eq_of_lt hi]

theorem scan_true {l : List Nat} (h : scan vals axisStride axisLen l = some true) :
    ∀ i ∈ l, vals[i]? = vals[i / axisStride % axisLen * axisStride]? := by
  induction l with
  | nil => simp
  | cons i l ih =>
    rw [scan] at h
    split at h
    · next v rep hv hrep =>
      split at h
      · next heq =>
        rw [forall_mem_cons, hv, hrep, heq]
        exact ⟨rfl, ih h⟩
      · cases h
    · cases h

theorem scan_ne_none {l : List Nat} (h : ∀ i ∈ l, i < vals.length ∧ i / axisStride % axisLen * axisStride < vals.length) :
    scan vals axisStride axisLen l ≠ none := by
  induction l with
  | nil => simp [scan]
  | cons i l ih =>
    rw [forall_mem_cons] at h
    rw [scan, getElem?_eq_getElem h.1.1, getElem?_eq_getElem h.1.2]
    dsimp only
    split
    · exact ih h.2
    · simp

theorem representative_spec (h : representative vals axisStride axisLen = some is) :
    is.length = axisLen ∧ ∀ kk < axisLen, is[kk]? = vals[kk * axisStride]? := by
  obtain ⟨hlen, hget⟩ : is.length = (List.range axisLen).length ∧
      ∀ i (hi : i < (List.range axisLen).length), is[i]? = vals[(List.range axisLen)[i] * axisStride]? := by
    unfold representative at h
    generalize List.range axisLen = l at h ⊢
    induction l generalizing is with
    | nil =>
      cases h
      simp
    | cons x l ih =>
      rw [mapM_cons] at h
      obtain ⟨v, hv, h⟩ := bind_eq_some_iff.mp h
      obtain ⟨rest, hrest, hcons⟩ := bind_eq_some_iff.mp h
      cases hcons
      obtain ⟨hlen, hget⟩ := ih hrest
      refine ⟨by rw [length_cons, length_cons, hlen], ?_⟩
      intro i hi
      cases i with
      | zero => simpa using hv.symm
      | succ i => simpa using hget i (by simpa using hi)
  rw [length_range] at hlen
  refine ⟨hlen, ?_⟩
  intro kk hkk
  have := hget kk (by simpa using hkk)
  simpa using this

theorem representative_ne_none (h : ∀ kk < axisLen, kk * axisStride < vals.length) :
    representative vals axisStride axisLen ≠ none := by
  unfold representative
  have hall : ∀ kk ∈ List.range axisLen, vals[kk * axisStride]?.isSome := by
    intro kk hkk
    rw [getElem?_eq_getElem (h kk (mem_range.mp hkk))]
    rfl
  revert hall
  generalize List.range axisLen = l
  intro hall
  induction l with
  | nil => simp
  | cons kk l ih =>
    rw [forall_mem_cons] at hall
    obtain ⟨v, hv⟩ := isSome_iff_exists.mp hall.1
    obtain ⟨rest, hrest⟩ := ne_none_iff_exists'.mp (ih hall.2)
    rw [mapM_cons, hv, hrest]
    simp

theorem representative_none (hvals : vals = []) (hlen : axisLen ≠ 0) : representative vals axisStride axisLen = none := by
  cases axisLen with
  | zero => exact absurd rfl hlen
  | succ n =>
    rw [representative, range_succ_eq_map, mapM_cons, hvals]
    rfl

end

section

variable {node : IndexNode} {t : Constant}

/-- What the checks leave. -/
structure Checked (node : IndexNode) (t : Constant) (k : Nat) : Prop where
  indices_eq : node.indices = some t
  length_eq : t.vals.length = t.sizes.prod
  place_eq : place t.sizes.length (node.axis.getD 0) = some k
  norm_eq : (normAxis (node.axis.getD 0) t.sizes.length).toNat = k

theorem checked_of_checkedConstant (h : checkedConstant node = some t) : ∃ k, Checked node t k := by
  unfold checkedConstant at h
  split at h
  · next data idx t' _ _ hindices =>
    split at h
    · next hguard =>
      cases h
      obtain ⟨-, -, -, -, -, -, -, hlow, hhigh, hrank, hlen⟩ := hguard
      rw [← hrank] at hlow hhigh
      refine ⟨_, hindices, hlen, ?_, rfl⟩
      rw [place_eq_some]
      unfold normAxis at hlow hhigh ⊢
      split at hlow <;> omega
    · cases h
  · cases h

/-- An index tensor with a dimension of size zero that is not the one along the axis has no values to read. -/
theorem rewrite_outOfBounds_iff (hconst : checkedConstant node = some t) (hcheck : Checked node t k) :
    rewriteGatherElementsToGather node = .outOfBounds ↔ 0 ∈ t.sizes ∧ t.sizes.getD k 0 ≠ 0 := by
  obtain ⟨pre, m, post, hs, hpre⟩ := exists_mid (place_lt hcheck.place_eq)
  have hstride : (strides t.sizes).getD k 0 = post.prod := by rw [hs, ← hpre, strides_getD]
  have hlen : t.sizes.getD k 0 = m := by rw [hs, getD_mid m hpre]
  unfold rewriteGatherElementsToGather
  simp only [hconst, hcheck.norm_eq, hstride, hlen]
  by_cases hzero : 0 ∈ t.sizes
  · have hprod : t.sizes.prod = 0 := prod_eq_zero hzero
    have hvals : t.vals = [] := eq_nil_of_length_eq_zero (hcheck.length_eq.trans hprod)
    rw [hprod, range_zero, scan]
    by_cases hm : m = 0
    · subst hm
      simp [representative]
    · simp [representative_none hvals hm, hzero, hm]
  · have hprod : (pre ++ m :: post).prod = pre.prod * (m * post.prod) := by rw [prod_append, prod_cons]
    have hpos : 0 < t.sizes.prod := Nat.pos_of_ne_zero fun h => hzero (prod_eq_zero_iff.mp h)
    rw [hs, hprod] at hpos
    have hm : 0 < m := Nat.pos_of_ne_zero (by rintro rfl; simp at hpos)
    have hpostpos : 0 < post.prod := Nat.pos_of_ne_zero (by intro h; simp [h] at hpos)
    have hprepos : 0 < pre.prod := Nat.pos_of_ne_zero (by intro h; simp [h] at hpos)
    have hrep : ∀ kk < m, kk * post.prod < t.vals.length := by
      intro kk hkk
      rw [hcheck.length_eq, hs, hprod]
      have h₁ : kk * post.prod < m * post.prod := Nat.mul_lt_mul_of_pos_right hkk hpostpos
      exact Nat.lt_of_lt_of_le h₁ (Nat.le_mul_of_pos_left _ hprepos)
    have hscan : scan t.vals post.prod m (List.range t.sizes.prod) ≠ none := by
      apply scan_ne_none
      intro i hi
      rw [hcheck.length_eq]
      refine ⟨mem_range.mp hi, ?_⟩
      rw [← hcheck.length_eq]
      exact hrep _ (Nat.mod_lt _ hm)
    have hsome := representative_ne_none hrep
    simp only [hzero, false_and, iff_false]
    split
    · next heq => exact absurd heq hscan
    · simp
    · split
      · next heq => exact absurd heq hsome
      · simp

theorem gather_of_representative [Inhabited α] {data y : NDArray α} {is : List Int}
    (hshape : idx.shape = pre ++ m :: post) (hplace : place (pre ++ m :: post).length axis = some pre.length)
    (hscan : scan idx.data post.prod m (List.range idx.shape.prod) = some true)
    (hrep : representative idx.data post.prod m = some is) (hy : gatherElements axis data idx = some y) :
    gather axis data (vector is) = some y := by
  obtain ⟨k, hk, hy⟩ := bind_eq_some_iff.mp hy
  split at hy
  · next hguard =>
    obtain ⟨hagree, hrange⟩ := hguard
    have hrank : (pre ++ m :: post).length = data.shape.length := by rw [← hshape, hagree, length_set]
    rw [hrank, hk] at hplace
    obtain rfl := Option.some.inj hplace
    obtain ⟨pre', n, post', hs, hpre⟩ := exists_mid (place_lt hk)
    rw [hshape, getD_mid m rfl, hs, set_mid n m hpre] at hagree
    obtain ⟨rfl, hparts⟩ := append_inj hagree hpre.symm
    obtain ⟨-, rfl⟩ := List.cons.inj hparts
    rw [hs, getD_mid n rfl] at hrange hy
    obtain ⟨hlen, hget⟩ := representative_spec hrep
    have hvec : (vector is).shape = [m] := by
      show [is.length] = [m]
      rw [hlen]
    have hmem : ∀ i ∈ (vector is).data, (place n i).isSome := by
      intro i hi
      obtain ⟨kk, hkk, rfl⟩ := getElem_of_mem hi
      apply hrange
      have hkk' : kk < m := by
        rw [← hlen]
        exact hkk
      have hval := hget kk hkk'
      rw [getElem?_eq_getElem (show kk < is.length from hkk)] at hval
      exact mem_of_getElem? hval.symm
    refine gather_eq_some.mpr ⟨pre.length, hk, by rw [hs, getD_mid n rfl]; exact hmem, ?_⟩
    rw [← Option.some.inj hy]
    have hshape' : (gathered pre.length data (vector is)).shape = pre ++ m :: post := by
      rw [shape_gathered hs rfl, hvec]
      rfl
    apply ext_readAt (hshape'.trans hshape.symm)
    intro p hp
    rw [hshape'] at hp
    obtain ⟨a, i, c, rfl, ha, hi, hc⟩ := exists_of_mem_indices_mid hp
    have hone : [i] ∈ indices (vector is).shape := by
      rw [hvec]
      simp [indices, hi]
    have hleft := readAt_gathered hs rfl ha hone hc
    have hright : ∀ f : List Nat → α, readAt (NDArray.ofFn idx.shape f) (a ++ i :: c) = f (a ++ i :: c) := by
      intro f
      apply readAt_ofFn
      rw [hshape]
      exact hp
    refine hleft.trans ?_
    rw [hright, set_mid i _ (length_of_mem_indices ha)]
    have hsame : readAt (vector is) [i] = readAt idx (a ++ i :: c) := by
      obtain ⟨o, ho, holt, hcoord⟩ := offset_mid ha hi hc
      have hsc := scan_true hscan o (by rw [hshape]; exact mem_range.mpr holt)
      rw [hcoord, ← hget i hi] at hsc
      have hv : readAt (vector is) [i] = (is[i]?).getD default := by
        simp [readAt, NDArray.get?, vector, offset, hlen, hi]
      have hw : readAt idx (a ++ i :: c) = (idx.data[o]?).getD default := by
        simp [readAt, NDArray.get?, hshape, ho]
      rw [hv, hw, hsc]
    rw [hsame]
  · cases hy

theorem elementsCorrect_iff (node : IndexNode) :
    ElementsCorrect (rewriteGatherElementsToGather node) node ↔
      ∀ t, checkedConstant node = some t →
        0 ∉ t.sizes ∨ t.sizes.getD (normAxis (node.axis.getD 0) t.sizes.length).toNat 0 = 0 := by
  constructor
  · intro hcorrect t hconst
    obtain ⟨k, hcheck⟩ := checked_of_checkedConstant hconst
    by_contra hbad
    push Not at hbad
    rw [hcheck.norm_eq] at hbad
    exact hcorrect.inBounds ((rewrite_outOfBounds_iff hconst hcheck).mpr hbad)
  · intro hcond
    refine ⟨?_, ?_⟩
    · intro hout
      cases hconst : checkedConstant node with
      | none => simp [rewriteGatherElementsToGather, hconst] at hout
      | some t =>
        obtain ⟨k, hcheck⟩ := checked_of_checkedConstant hconst
        have hbad := (rewrite_outOfBounds_iff hconst hcheck).mp hout
        have hgood := hcond t hconst
        rw [hcheck.norm_eq] at hgood
        exact hgood.elim (fun h => h hbad.1) hbad.2
    · intro axis is hfire α _ data y idx t hindices hholds hy
      cases hconst : checkedConstant node with
      | none => simp [rewriteGatherElementsToGather, hconst] at hfire
      | some t' =>
        obtain ⟨k, hcheck⟩ := checked_of_checkedConstant hconst
        have ht : t = t' := Option.some.inj (hindices.symm.trans hcheck.indices_eq)
        subst ht
        obtain ⟨pre, m, post, hs, rfl⟩ := exists_mid (place_lt hcheck.place_eq)
        have hplace := hcheck.place_eq
        have hstride : (strides t.sizes).getD pre.length 0 = post.prod := by rw [hs, strides_getD]
        have hlen : t.sizes.getD pre.length 0 = m := by rw [hs, getD_mid m rfl]
        unfold rewriteGatherElementsToGather at hfire
        simp only [hconst, hcheck.norm_eq, hstride, hlen] at hfire
        split at hfire
        · cases hfire
        · cases hfire
        · next hscan =>
          split at hfire
          · cases hfire
          · next hrep =>
            cases hfire
            obtain ⟨hshape, hdata⟩ := hholds
            rw [← hshape, ← hdata] at hscan
            rw [← hdata] at hrep
            rw [hs] at hplace
            exact gather_of_representative (hshape.trans hs) hplace hscan hrep hy

end

section

variable {addYIfNegative : Int → Int → Int} {axisSizes : List Int}

theorem segmentOf_spec {norm offset : Int} {sizes : List Int} (hne : sizes ≠ []) (hlow : offset ≤ norm)
    (hhigh : norm < offset + sizes.sum) :
    segmentOf norm offset sizes < sizes.length ∧ offset + (sizes.take (segmentOf norm offset sizes)).sum ≤ norm ∧
      norm < offset + (sizes.take (segmentOf norm offset sizes)).sum + sizes.getD (segmentOf norm offset sizes) 0 := by
  induction sizes generalizing offset with
  | nil => exact absurd rfl hne
  | cons s sizes ih =>
    cases sizes with
    | nil => simpa [segmentOf, hlow] using hhigh
    | cons next sizes =>
      rw [segmentOf]
      split
      · next hle =>
        rw [sum_cons] at hhigh
        obtain ⟨hlt, hl, hh⟩ := ih (by simp) hle (by omega)
        rw [length_cons, take_succ_cons, sum_cons, getD_cons_succ]
        omega
      · next hlt => simpa [hlow] using hlt

/-- What the search has found for an index. -/
structure Located (addYIfNegative : Int → Int → Int) (axisSizes : List Int) (seg : Nat) (v loc : Int) : Prop where
  low : 0 ≤ addYIfNegative v axisSizes.sum
  high : addYIfNegative v axisSizes.sum < axisSizes.sum
  seg_eq : segmentOf (addYIfNegative v axisSizes.sum) 0 axisSizes = seg
  loc_eq : loc = addYIfNegative v axisSizes.sum - (axisSizes.take seg).sum

variable {indices : List Int}

theorem resolveLoop_spec {start seg : Option Nat}
    (h : resolveLoop addYIfNegative axisSizes start indices = some (seg, locals)) :
    (∀ s, start = some s → seg = some s) ∧
      ∀ s, seg = some s → List.Forall₂ (Located addYIfNegative axisSizes s) indices locals := by
  induction indices generalizing start seg locals with
  | nil =>
    cases h
    exact ⟨fun s hs => hs, fun s hs => .nil⟩
  | cons v indices ih =>
    rw [resolveLoop] at h
    split at h
    · cases h
    · next hrange =>
      split at h
      · cases h
      · next hsame =>
        obtain ⟨r, hr, heq⟩ := map_eq_some_iff.mp h
        obtain ⟨rfl, rfl⟩ := Prod.mk.inj heq
        push Not at hrange hsame
        obtain ⟨hstart, hall⟩ := ih hr
        have hfound := hstart _ rfl
        refine ⟨?_, ?_⟩
        · rintro s rfl
          rw [hfound]
          exact (hsame (by simp)).symm
        · intro s hs
          have hseg := Option.some.inj (hfound.symm.trans hs)
          refine .cons ⟨hrange.1, hrange.2, hseg, ?_⟩ (hall s hs)
          rw [← hseg]

theorem resolveSingleSegment_spec (h : resolveSingleSegment addYIfNegative indices axisSizes = some (seg, locals)) :
    List.Forall₂ (Located addYIfNegative axisSizes seg) indices locals := by
  unfold resolveSingleSegment at h
  split at h
  · next heq =>
    obtain ⟨rfl, rfl⟩ := Prod.mk.inj (Option.some.inj h)
    exact (resolveLoop_spec heq).2 _ rfl
  · cases h

theorem wrap32_of_range {x : Int} (hlow : -(2 ^ 31) ≤ x) (hhigh : x < 2 ^ 31) : wrap32 x = x := by
  rw [wrap32, Int.bmod_eq_of_le] <;> omega

theorem dvd_sub_wrap32 (x : Int) : 2 ^ 32 ∣ x - wrap32 x := by
  have h : wrap32 x % 2 ^ 32 = x % 2 ^ 32 := Int.bmod_emod
  omega

theorem place_wrap32_iff {len : Nat} {l : Nat} (hloc : loc = l) (hlt : l < len) (hback : -(2 ^ 31) ≤ loc - len) :
    place len (wrap32 loc) = some l ↔ loc < 2 ^ 31 ∨ (2 ^ 32 : Int) ∣ len := by
  rw [place_eq_some]
  have hdvd := dvd_sub_wrap32 loc
  have hrange := wrap32_range loc
  constructor
  · rintro ⟨-, h | h⟩ <;> omega
  · intro h
    refine ⟨hlt, ?_⟩
    omega

end

section

variable {addYIfNegative : Int → Int → Int} {c : ConcatGather} {t : Constant} {axisSizes : List Int}

variable {l : List Int} {sizes : List Nat} {v : Int} {r : Nat} {result : Nat × Constant}

theorem drop_sum_eq (h : i < l.length) : (l.drop i).sum = l.getD i 0 + (l.drop (i + 1)).sum := by
  rw [drop_eq_getElem_cons h, sum_cons, getD_eq_getElem _ _ h]

theorem forall₂_readAt {R : Int → Int → Prop} {idx' : NDArray Int} (hshape : idx'.shape = idx.shape)
    (h : List.Forall₂ R idx.data idx'.data) {p : List Nat} (hp : p ∈ indices idx.shape) :
    R (readAt idx p) (readAt idx' p) := by
  obtain ⟨o, ho, hoff⟩ := offset_of_mem_indices hp
  have h₁ : o < idx.data.length := by rw [idx.length_data]; exact ho
  have h₂ : o < idx'.data.length := by rw [← h.length_eq]; exact h₁
  have hv : readAt idx p = idx.data[o] := by
    rw [readAt, NDArray.get?, hoff, bind_some, getElem?_eq_getElem h₁, getD_some]
  have hw : readAt idx' p = idx'.data[o] := by
    rw [readAt, NDArray.get?, hshape, hoff, bind_some, getElem?_eq_getElem h₂, getD_some]
  rw [hv, hw]
  exact h.get h₁ h₂

def stored (t : Constant) (loc : Int) : Int := if t.elemType = .int32 then wrap32 loc else loc

theorem shifted_vals (t : Constant) (locals : List Int) : (shifted t locals).vals = locals.map (stored t) := by
  show storedVals t.elemType locals = _
  unfold storedVals stored
  split
  · rfl
  · exact (List.map_id' _).symm

theorem forall_nonneg_cast (h : ∀ s ∈ l, 0 ≤ s) : l = (l.map Int.toNat).map (Nat.cast : Nat → Int) := by
  induction l with
  | nil => rfl
  | cons s l ih =>
    rw [forall_mem_cons] at h
    rw [map_cons, map_cons, Int.toNat_of_nonneg h.1, ← ih h.2]

theorem places_of_located (hadd : ∀ x y, addYIfNegative x y = if x < 0 then x + y else x) (hne : sizes ≠ [])
    (h : Located addYIfNegative (sizes.map (Nat.cast : Nat → Int)) seg v loc) :
    seg < sizes.length ∧ ∃ l : Nat, loc = l ∧ l < sizes.getD seg 0 ∧
      place sizes.sum v = some (l + (sizes.take seg).sum) ∧
      (v < 0 → loc = v + ((sizes.map (Nat.cast : Nat → Int)).drop seg).sum) ∧ (0 ≤ v → loc ≤ v) := by
  obtain ⟨hlow, hhigh, hseg, hloc⟩ := h
  have hne' : sizes.map (Nat.cast : Nat → Int) ≠ [] := by simpa using hne
  have hspec := segmentOf_spec hne' hlow (by rw [Int.zero_add]; exact hhigh)
  rw [hseg] at hspec
  obtain ⟨hlt, hl, hh⟩ := hspec
  rw [length_map] at hlt
  have htake : ((sizes.map (Nat.cast : Nat → Int)).take seg).sum = ((sizes.take seg).sum : Nat) := by
    rw [← map_take, ← Nat.cast_list_sum]
  have hget : (sizes.map (Nat.cast : Nat → Int)).getD seg 0 = (sizes.getD seg 0 : Nat) := by
    rw [getD_eq_getElem _ _ (by simpa using hlt), getD_eq_getElem _ _ hlt, getElem_map]
  have hdrop := sum_take_add_sum_drop (sizes.map (Nat.cast : Nat → Int)) seg
  rw [← Nat.cast_list_sum] at hhigh hdrop
  rw [htake] at hl hh hloc hdrop
  rw [hget] at hh
  have hnorm := hadd v (sizes.sum : Nat)
  rw [← Nat.cast_list_sum] at hlow hl hh hloc
  refine ⟨hlt, loc.toNat, by omega, by omega, ?_, ?_, ?_⟩
  · rw [place_eq_some]
    split at hnorm <;> omega
  · intro hv
    rw [if_pos hv] at hnorm
    omega
  · intro hv
    rw [if_neg (by omega)] at hnorm
    omega

theorem place_stored_iff {l : Nat} (hv : v ∈ t.vals) (hseg : seg < sizes.length) (hloc : loc = l)
    (hlt : l < sizes.getD seg 0) (hneg : v < 0 → loc = v + ((sizes.map (Nat.cast : Nat → Int)).drop seg).sum)
    (hpos : 0 ≤ v → loc ≤ v) :
    place (sizes.getD seg 0) (stored t loc) = some l ↔ (t.elemType = .int32 →
      0 ≤ v ∨ v + ((sizes.map (Nat.cast : Nat → Int)).drop seg).sum < 2 ^ 31 ∨
        2 ^ 32 ∣ (sizes.map (Nat.cast : Nat → Int)).getD seg 0) := by
  have hget : (sizes.map (Nat.cast : Nat → Int)).getD seg 0 = (sizes.getD seg 0 : Nat) := by
    rw [getD_eq_getElem _ _ (by simpa using hseg), getD_eq_getElem _ _ hseg, getElem_map]
  unfold stored
  by_cases htype : t.elemType = .int32
  · rw [if_pos htype, hget]
    simp only [htype, forall_const]
    have hrange := t.int32_range htype v hv
    by_cases hv0 : 0 ≤ v
    · have hle := hpos hv0
      rw [wrap32_of_range (by omega) (by omega), place_eq_some]
      exact ⟨fun _ => Or.inl hv0, fun _ => ⟨hlt, Or.inl hloc⟩⟩
    · have heq := hneg (by omega)
      have hdrop := drop_sum_eq (l := sizes.map (Nat.cast : Nat → Int)) (by simpa using hseg)
      have hrest : 0 ≤ ((sizes.map (Nat.cast : Nat → Int)).drop (seg + 1)).sum := by
        rw [← map_drop, ← Nat.cast_list_sum]
        exact Int.natCast_nonneg _
      rw [hget] at hdrop
      rw [place_wrap32_iff hloc hlt (by omega), ← heq]
      simp [hv0]
  · rw [if_neg htype, place_eq_some]
    exact ⟨fun _ h => absurd h htype, fun _ => ⟨hlt, Or.inl hloc⟩⟩

theorem place_of_add (hadd : ∀ x y, addYIfNegative x y = if x < 0 then x + y else x)
    (hlow : 0 ≤ addYIfNegative axis r) (hhigh : addYIfNegative axis r < r) :
    place r axis = some (addYIfNegative axis r).toNat := by
  have h := hadd axis r
  rw [place_eq_some]
  split at h <;> omega

/-- What a rewrite has found. -/
structure Found (c : ConcatGather) (r k : Nat) (axisSizes : List Int) : Prop where
  gatherAxis : place r (c.node.axis.getD 0) = some k
  concatAxis : place r c.concatAxis = some k
  sizes_ne : axisSizes ≠ []

theorem found_of_sharedAxisSizes (hadd : ∀ x y, addYIfNegative x y = if x < 0 then x + y else x) {data : List Dimension}
    (hdata : c.node.dataSizes = some data) (h : sharedAxisSizes addYIfNegative c = some axisSizes) :
    Found c data.length (addYIfNegative c.concatAxis data.length).toNat axisSizes := by
  unfold sharedAxisSizes at h
  rw [hdata] at h
  dsimp only at h
  split at h
  · next hguard =>
    obtain ⟨-, -, -, -, -, htwo, hlow, hhigh, hsame⟩ := hguard
    refine ⟨?_, ?_, ?_⟩
    · rw [← hsame]
      exact place_of_add hadd hlow hhigh
    · exact place_of_add hadd (by omega) (by omega)
    · rintro rfl
      cases hsizes : c.concatSizes with
      | nil => simp [hsizes] at htwo
      | cons s rest =>
        rw [hsizes, mapM_cons] at h
        obtain ⟨a, -, h⟩ := bind_eq_some_iff.mp h
        obtain ⟨b, -, h⟩ := bind_eq_some_iff.mp h
        cases h
  · cases h

theorem sizes_of_operands {xs : List (NDArray α)} (h : Operands r k axisSizes xs) :
    axisSizes = (xs.map fun x => x.shape.getD k 0).map (Nat.cast : Nat → Int) ∧ ∀ x ∈ xs, x.shape.length = r := by
  induction h with
  | nil => exact ⟨rfl, by simp⟩
  | cons hx _ ih =>
    rw [map_cons, map_cons, forall_mem_cons, ← ih.1, hx.2]
    exact ⟨rfl, hx.1, ih.2⟩

theorem result_of_fire (hshared : sharedAxisSizes addYIfNegative c = some axisSizes)
    (hindices : c.node.indices = some t) (hfire : rewriteGatherOverConcat addYIfNegative c = some result) :
    ∃ locals, result = (result.1, shifted t locals) ∧
      List.Forall₂ (Located addYIfNegative axisSizes result.1) t.vals locals := by
  unfold rewriteGatherOverConcat at hfire
  rw [hshared, hindices] at hfire
  dsimp only at hfire
  split at hfire
  · cases hfire
  · obtain ⟨r, hr, rfl⟩ := map_eq_some_iff.mp hfire
    exact ⟨r.2, rfl, resolveSingleSegment_spec hr⟩

def Paired (addYIfNegative : Int → Int → Int) (axisSizes : List Int) (seg : Nat) (t : Constant) (v w : Int) : Prop :=
  v ∈ t.vals ∧ ∃ loc, Located addYIfNegative axisSizes seg v loc ∧ w = stored t loc

theorem forall₂_paired (h : List.Forall₂ (Located addYIfNegative axisSizes seg) t.vals locals) :
    List.Forall₂ (Paired addYIfNegative axisSizes seg t) t.vals (shifted t locals).vals := by
  have hmem : ∀ (l vs : List Int), (∀ v ∈ vs, v ∈ t.vals) →
      List.Forall₂ (Located addYIfNegative axisSizes seg) vs l →
      List.Forall₂ (Paired addYIfNegative axisSizes seg t) vs (l.map (stored t)) := by
    intro l vs hvs hall
    induction hall with
    | nil => exact .nil
    | cons hfirst _ ih =>
      rw [forall_mem_cons] at hvs
      exact .cons ⟨hvs.1, _, hfirst, rfl⟩ (ih hvs.2)
  rw [shifted_vals]
  exact hmem _ _ (fun v hv => hv) h

theorem overConcat_of_fits (hadd : ∀ x y, addYIfNegative x y = if x < 0 then x + y else x)
    (hfound : Found c r k axisSizes) (hlocated : List.Forall₂ (Located addYIfNegative axisSizes seg) t.vals locals)
    (hvals : t.vals ≠ []) (hfits : Fits axisSizes seg t) :
    OverConcatCorrect c r k axisSizes t (seg, shifted t locals) := by
  intro α _ xs whole y idx idx' hops hconcat hidx hidx' hy
  obtain ⟨hsizes, hranks⟩ := sizes_of_operands hops
  obtain ⟨k', hk', hdim, hslabs⟩ := slabs_of_concat hconcat
  generalize hs : (xs.map fun x => x.shape.getD k' 0) = sizes at hdim hslabs
  have hrank : whole.shape.length = r := by
    cases xs with
    | nil => cases hconcat
    | cons x xs =>
      cases sizes with
      | nil => cases hslabs
      | cons len sizes =>
        have hfirst := (List.cons.inj hslabs).1
        rw [← hranks x mem_cons_self, ← hfirst]
        exact length_set.symm
  rw [hrank, hfound.concatAxis] at hk'
  obtain rfl := Option.some.inj hk'
  rw [hs] at hsizes
  have hne : sizes ≠ [] := by
    rintro rfl
    exact hfound.sizes_ne hsizes
  obtain ⟨pre, n, post, hw, hpre⟩ := exists_mid (place_lt (hrank.symm ▸ hfound.gatherAxis))
  rw [hw, getD_mid n hpre] at hdim
  obtain ⟨k'', hk'', -, rfl⟩ := gather_eq_some.mp hy
  rw [hrank, hfound.gatherAxis] at hk''
  obtain rfl := Option.some.inj hk''
  subst hsizes
  have hpairs := forall₂_paired hlocated
  rw [← hidx.2, ← hidx'.2] at hpairs
  have hplaces : ∀ v w, Paired addYIfNegative (sizes.map (Nat.cast : Nat → Int)) seg t v w →
      seg < sizes.length ∧ ∃ l, place (sizes.getD seg 0) w = some l ∧
        place sizes.sum v = some (l + (sizes.take seg).sum) := by
    rintro v w ⟨hv, loc, hloc, rfl⟩
    obtain ⟨hseg, l, hl, hlt, hplace, hneg, hpos⟩ := places_of_located hadd hne hloc
    refine ⟨hseg, l, ?_, hplace⟩
    rw [place_stored_iff hv hseg hl hlt hneg hpos]
    exact fun htype => hfits htype v hv
  obtain ⟨v, hv⟩ := exists_mem_of_ne_nil _ hvals
  obtain ⟨loc, -, hloc⟩ := Lib.Results.forall₂_exists_left hlocated.flip hv
  have hseg : seg < sizes.length := (places_of_located hadd hne hloc).1
  have hx : xs[seg]? = some (slab k (sizes.take seg).sum (sizes.getD seg 0) whole) := by
    rw [← hslabs, getElem?_slabs, getElem?_eq_getElem hseg, map_some, Nat.zero_add,
      getD_eq_getElem _ _ hseg]
  refine ⟨_, hx, gather_eq_some.mpr ⟨k, ?_, ?_, ?_⟩⟩
  · have hlen : (slab k (sizes.take seg).sum (sizes.getD seg 0) whole).shape.length = whole.shape.length := length_set
    rw [hlen, hrank]
    exact hfound.gatherAxis
  · rw [shape_slab hw hpre, getD_mid _ hpre]
    intro w hwmem
    obtain ⟨p, hp, rfl⟩ := mem_data.mp hwmem
    rw [hidx'.1, show (shifted t locals).sizes = t.sizes from rfl, ← hidx.1] at hp
    obtain ⟨l, hl, -⟩ := (hplaces _ _ (forall₂_readAt (hidx'.1.trans hidx.1.symm) hpairs hp)).2
    rw [hl]
    rfl
  · apply gathered_of_slab hw hpre (hidx'.1.trans hidx.1.symm)
    intro p hp
    rw [hdim]
    exact (hplaces _ _ (forall₂_readAt (hidx'.1.trans hidx.1.symm) hpairs hp)).2

theorem operands_slabs [Inhabited α] {w : NDArray α} {start : Nat} (hr : w.shape.length = r) (hk : k < r)
    (sizes : List Nat) : Operands r k (sizes.map (Nat.cast : Nat → Int)) (slabs k w start sizes) := by
  obtain ⟨pre, n, post, hw, hpre⟩ := exists_mid (hr ▸ hk)
  induction sizes generalizing start with
  | nil => exact .nil
  | cons len sizes ih =>
    refine .cons ⟨?_, ?_⟩ ih
    · rw [← hr]
      exact length_set
    · rw [shape_slab hw hpre, getD_mid len hpre]

theorem zeros_mem_indices (n : Nat) : List.replicate n 0 ∈ indices (List.replicate n 1) := by
  induction n with
  | zero => exact mem_singleton.mpr rfl
  | succ n ih => exact mem_indices_cons.mpr ⟨Nat.one_pos, ih⟩

/-- An array of length one along all axes but one, whose elements are their own positions. -/
def ruler (k total rest : Nat) : NDArray Int :=
  NDArray.ofFn (List.replicate k 1 ++ total :: List.replicate rest 1) fun p => (p.getD k 0 : Nat)

theorem readAt_ruler {total rest : Nat} (hi : i < total) :
    readAt (ruler k total rest) (List.replicate k 0 ++ i :: List.replicate rest 0) = i := by
  refine (readAt_ofFn _ (mid_mem_indices (zeros_mem_indices k) hi (zeros_mem_indices rest))).trans ?_
  rw [getD_mid i length_replicate]

theorem fits_of_overConcat (hadd : ∀ x y, addYIfNegative x y = if x < 0 then x + y else x)
    (hfound : Found c r k axisSizes) (hlocated : List.Forall₂ (Located addYIfNegative axisSizes seg) t.vals locals)
    (hlen : t.vals.length = t.sizes.prod) (hnonneg : ∀ s ∈ axisSizes, 0 ≤ s)
    (hcorrect : OverConcatCorrect c r k axisSizes t (seg, shifted t locals)) : Fits axisSizes seg t := by
  intro htype v hv
  have hcast := forall_nonneg_cast hnonneg
  generalize axisSizes.map Int.toNat = sizes at hcast
  subst hcast
  have hne : sizes ≠ [] := by
    rintro rfl
    exact hfound.sizes_ne rfl
  have hk := place_lt hfound.gatherAxis
  let w := ruler k sizes.sum (r - k - 1)
  have hw : w.shape = List.replicate k 1 ++ sizes.sum :: List.replicate (r - k - 1) 1 := rfl
  have hpre : (List.replicate k 1).length = k := length_replicate
  have hrank : w.shape.length = r := by
    rw [hw, length_append, length_cons, length_replicate, length_replicate]
    omega
  have hconcat : concat c.concatAxis (slabs k w 0 sizes) = some w := by
    apply concat_slabs
    · rw [hrank]
      exact hfound.concatAxis
    · exact hne
    · rw [hw, getD_mid _ hpre]
  have hplaces : ∀ u, u ∈ t.vals → ∃ loc, Located addYIfNegative (sizes.map (Nat.cast : Nat → Int)) seg u loc :=
    fun u hu => (Lib.Results.forall₂_exists_left hlocated.flip hu).imp fun _ => And.right
  let idx : NDArray Int := ⟨t.sizes, t.vals, hlen⟩
  have hlen' : (shifted t locals).vals.length = t.sizes.prod := by
    rw [shifted_vals, length_map, ← hlocated.length_eq, hlen]
  let idx' : NDArray Int := ⟨t.sizes, (shifted t locals).vals, hlen'⟩
  have hy : gather (c.node.axis.getD 0) w idx = some (gathered k w idx) := by
    refine gather_eq_some.mpr ⟨k, by rw [hrank]; exact hfound.gatherAxis, ?_, rfl⟩
    intro u hu
    obtain ⟨loc, hloc⟩ := hplaces u hu
    obtain ⟨-, l, -, -, hplace, -⟩ := places_of_located hadd hne hloc
    rw [hw, getD_mid _ hpre, hplace]
    rfl
  obtain ⟨x, hx, hresult⟩ := hcorrect Int _ w _ idx idx' (operands_slabs hrank hk sizes) hconcat ⟨rfl, rfl⟩ ⟨rfl, rfl⟩ hy
  obtain ⟨p, hp, hread⟩ := (mem_data (x := idx)).mp hv
  have hpair : Paired addYIfNegative (sizes.map (Nat.cast : Nat → Int)) seg t (readAt idx p) (readAt idx' p) :=
    forall₂_readAt (show idx'.shape = idx.shape from rfl) (forall₂_paired hlocated) hp
  obtain ⟨-, loc, hloc, hstored⟩ := hpair
  rw [hread] at hloc
  obtain ⟨hseg, l, hl, hlt, hplace, hneg, hpos⟩ := places_of_located hadd hne hloc
  rw [getElem?_slabs, getElem?_eq_getElem hseg, map_some, Nat.zero_add, ← getD_eq_getElem _ 0 hseg] at hx
  obtain rfl := Option.some.inj hx
  have hslab : (slab k (sizes.take seg).sum (sizes.getD seg 0) w).shape =
      List.replicate k 1 ++ sizes.getD seg 0 :: List.replicate (r - k - 1) 1 := shape_slab hw hpre
  obtain ⟨k', hk', hrange, hsame⟩ := gather_eq_some.mp hresult
  have hk'' : k' = k := by
    rw [hslab] at hk'
    have hlength : (List.replicate k 1 ++ sizes.getD seg 0 :: List.replicate (r - k - 1) 1).length = r := by
      rw [length_append, length_cons, length_replicate, length_replicate]
      omega
    rw [hlength, hfound.gatherAxis] at hk'
    exact (Option.some.inj hk').symm
  subst hk''
  have hmem : readAt idx' p ∈ idx'.data := mem_data.mpr ⟨p, hp, rfl⟩
  have hsome := hrange _ hmem
  rw [hslab, getD_mid _ hpre] at hsome
  obtain ⟨l', hl'⟩ := isSome_iff_exists.mp hsome
  have hzeros := zeros_mem_indices k'
  have hzeros' := zeros_mem_indices (r - k' - 1)
  have hbound : l + (sizes.take seg).sum < sizes.sum := place_lt hplace
  have hright : readAt (gathered k' w idx) _ = _ := readAt_gathered hw hpre hzeros hp hzeros'
  have hleft : readAt (gathered k' (slab k' (sizes.take seg).sum (sizes.getD seg 0) w) idx') _ = _ :=
    readAt_gathered hslab hpre hzeros hp hzeros'
  rw [hl', getD_some, readAt_slab hw hpre hzeros (place_lt hl') hzeros', hsame, hright, hread, hplace,
    getD_some, readAt_ruler hbound] at hleft
  have hbound' : l' + (sizes.take seg).sum < sizes.sum := by
    have htake : (sizes.take (seg + 1)).sum ≤ sizes.sum := List.Sublist.sum_le_sum (take_sublist _ _) (by simp)
    rw [take_add_one, sum_append, getElem?_eq_getElem hseg, ← getD_eq_getElem _ 0 hseg] at htake
    have := place_lt hl'
    simp only [toList_some, sum_singleton] at htake
    omega
  rw [readAt_ruler hbound'] at hleft
  have hl'' : l' = l := by omega
  subst hl''
  rw [hstored] at hl'
  exact (place_stored_iff hv hseg hl hlt hneg hpos).mp hl' htype

theorem vals_ne_nil (hshared : sharedAxisSizes addYIfNegative c = some axisSizes) (hindices : c.node.indices = some t)
    (hfire : rewriteGatherOverConcat addYIfNegative c = some result) : t.vals ≠ [] := by
  intro hnil
  unfold rewriteGatherOverConcat at hfire
  rw [hshared, hindices] at hfire
  dsimp only at hfire
  rw [hnil] at hfire
  split at hfire <;> cases hfire

end

/-- Parsed indices are read past their end when only other axes are empty, and a local index may not fit into the
type of the indices. -/
theorem constant_gathers_correct_iff {node : IndexNode} {addYIfNegative : Int → Int → Int} {c : ConcatGather}
    {t : Constant} {data : List Dimension} {axisSizes : List Int} {result : Nat × Constant}
    (hadd : ∀ x y, addYIfNegative x y = if x < 0 then x + y else x) (hdata : c.node.dataSizes = some data)
    (hshared : sharedAxisSizes addYIfNegative c = some axisSizes) (hindices : c.node.indices = some t)
    (hlen : t.vals.length = t.sizes.prod) (hnonneg : ∀ s ∈ axisSizes, 0 ≤ s)
    (hfire : rewriteGatherOverConcat addYIfNegative c = some result) :
    (ElementsCorrect (rewriteGatherElementsToGather node) node ↔
      ∀ u, checkedConstant node = some u →
        0 ∉ u.sizes ∨ u.sizes.getD (normAxis (node.axis.getD 0) u.sizes.length).toNat 0 = 0) ∧
    (OverConcatCorrect c data.length (addYIfNegative c.concatAxis data.length).toNat axisSizes t result ↔
      Fits axisSizes result.1 t) := by
  refine ⟨elementsCorrect_iff node, ?_⟩
  have hfound := found_of_sharedAxisSizes hadd hdata hshared
  obtain ⟨locals, hresult, hlocated⟩ := result_of_fire hshared hindices hfire
  rw [hresult]
  constructor
  · exact fits_of_overConcat hadd hfound hlocated hlen hnonneg
  · exact overConcat_of_fits hadd hfound hlocated (vals_ne_nil hshared hindices hfire)

def addIfNegative (x y : Int) : Int := if x < 0 then x + y else x

theorem minus_one_range : ∀ v ∈ [(-1 : Int)], -(2 ^ 31) ≤ v ∧ v < 2 ^ 31 := by decide

def noRows : Constant := ⟨.int64, [0, 3], [], nofun⟩

def lastIndex : Constant := ⟨.int32, [1], [-1], fun _ => minus_one_range⟩

def elementsNode : IndexNode :=
  ⟨"GatherElements", "", 2, 1, some 1, some [.size 0, .size 5], some [.size 0, .size 3], some noRows⟩

/-- A Gather with the index -1 from the Concat of two vectors. -/
def lastOf (first : Int) : ConcatGather :=
  ⟨⟨"Gather", "", 2, 1, none, some [.unknown], some [.size 1], some lastIndex⟩, "Concat", 0,
    [some [.size first], some [.size 0]]⟩

theorem addIfNegative_spec (x y : Int) : addIfNegative x y = if x < 0 then x + y else x := rfl

theorem lastOf_sizes (first : Int) : sharedAxisSizes addIfNegative (lastOf first) = some [first, 0] := rfl

/-- The last place of a vector of length `2 ^ 32 - 1` becomes the index -2. -/
theorem gathers_go_wrong :
    rewriteGatherElementsToGather elementsNode = .outOfBounds ∧
      rewriteGatherOverConcat addIfNegative (lastOf (2 ^ 32 - 1)) = some (0, shifted lastIndex [2 ^ 32 - 2]) ∧
      ¬ OverConcatCorrect (lastOf (2 ^ 32 - 1)) 1 0 [2 ^ 32 - 1, 0] lastIndex (0, shifted lastIndex [2 ^ 32 - 2]) := by
  refine ⟨by decide, by decide, ?_⟩
  intro hcorrect
  have hdata : (lastOf (2 ^ 32 - 1)).node.dataSizes = some [.unknown] := rfl
  have hfound := found_of_sharedAxisSizes addIfNegative_spec hdata (lastOf_sizes _)
  have hfits := fits_of_overConcat addIfNegative_spec hfound (.cons ⟨by decide, by decide, by decide, by decide⟩ .nil)
    rfl (by decide) hcorrect
  have := hfits rfl (-1) mem_cons_self
  revert this
  decide

theorem constant_gathers_instance :
    (ElementsCorrect (rewriteGatherElementsToGather elementsNode) elementsNode ↔
      ∀ u, checkedConstant elementsNode = some u →
        0 ∉ u.sizes ∨ u.sizes.getD (normAxis (elementsNode.axis.getD 0) u.sizes.length).toNat 0 = 0) ∧
    (OverConcatCorrect (lastOf 4) 1 0 [4, 0] lastIndex (0, shifted lastIndex [3]) ↔ Fits [4, 0] 0 lastIndex) :=
  constant_gathers_correct_iff addIfNegative_spec (show (lastOf 4).node.dataSizes = some [.unknown] from rfl)
    (lastOf_sizes 4) rfl rfl (by decide) (by decide)

end Onnxsim.Passes.ConstantGathers
