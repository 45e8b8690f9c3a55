import Onnxsim.Passes.GatherNd
import Onnxsim.Passes.NamedDims
import Onnxsim.Passes.Spreading

namespace Onnxsim.Passes.Scatters

open List Option Overflow.Arrays PartialShape.Reshaping
open ConstantGathers (Constant ElemType Holds offset_append vector)
open GatherNd (placeAll tuple)
open Gathers IndexArrays NamedDims
open Reduce.Axes (ofFn_congr)
open Reduce.Fusion (Dimension)
open ShapeRanges.Broadcasting (actualBroadcast2 actualBroadcastDim actualBroadcastDims actualPad)

variable {α : Type} [Inhabited α]

/-- An operand of the Concat that makes a shape: a constant, or a vector of which the sizes are recorded. -/
inductive Piece where
  | constant (int64 : Bool) (rank : Nat) (vals : List Int)
  | computed (sizes : Option (List Dimension))

inductive ShapeVector where
  | constant (int64 : Bool) (rank : Nat) (vals : List Int)
  | concat (axis : Int) (pieces : List Piece)
  | other

/-- A value with the sizes that are recorded of it and what makes it; a node of a domain of its own, or with other
operands than ONNX gives it, is none of the two. -/
inductive DataValue where
  | constantOfShape (sizes : Option (List Dimension)) (shape : ShapeVector)
  | scatter (sizes : Option (List Dimension)) (data : DataValue)
  | other (sizes : Option (List Dimension))

def DataValue.sizes : DataValue → Option (List Dimension)
  | .constantOfShape sizes _ => sizes
  | .scatter sizes _ => sizes
  | .other sizes => sizes

/-- The producer of the indices, with what is recorded of the input of an Expand. -/
inductive IndicesSource where
  | expand (elemType : ElemType) (sizes : Option (List Dimension))
  | constant (t : Constant)
  | other

structure ScatterNode where
  domain : Option String
  inputs : Nat
  outputs : Nat
  opset : Int
  reduction : Option String
  axis : Option Int
  data : DataValue
  indices : IndicesSource
  indicesSizes : Option (List Dimension)
  updatesSizes : Option (List Dimension)

def scatterRank (node : ScatterNode) : Option Nat :=
  ((node.data.sizes <|> node.indicesSizes) <|> node.updatesSizes).map List.length

def constDims (int64 : Bool) (rank : Nat) (vals : List Int) : Option (List Dimension) :=
  if int64 = false ∨ 1 < rank then none else some (vals.map Dimension.size)

def pieceDims : Piece → Option (List Dimension)
  | .constant int64 rank vals => constDims int64 rank vals
  | .computed (some [.size n]) => some (List.replicate n.toNat .unknown)
  | .computed _ => none

def shapeVectorDims (r : Nat) : ShapeVector → Option (List Dimension)
  | .constant int64 rank vals =>
    (constDims int64 rank vals).bind fun out => if out.length = r then some out else none
  | .concat axis pieces =>
    if axis ≠ 0 ∧ axis ≠ -1 then none
    else (pieces.mapM pieceDims).bind fun out => if out.flatten.length = r then some out.flatten else none
  | .other => none

def ownDims (r : Nat) (sizes : Option (List Dimension)) : List Dimension :=
  match sizes with
  | some ds => if ds.length = r then ds else List.replicate r .unknown
  | none => List.replicate r .unknown

def fillDim : Dimension → Dimension → Dimension
  | .size a, _ => .size a
  | _, .size b => .size b
  | d, _ => d

def dataDims (r depth : Nat) : DataValue → List Dimension
  | .other sizes => ownDims r sizes
  | .constantOfShape sizes shape =>
    match shapeVectorDims r shape with
    | some found => List.zipWith fillDim (ownDims r sizes) found
    | none => ownDims r sizes
  | .scatter sizes data =>
    if depth < 64 then List.zipWith fillDim (ownDims r sizes) (dataDims r (depth + 1) data) else ownDims r sizes

def trailingDimsMatch (data : DataValue) (updates : Option (List Dimension)) (r : Nat) : Bool :=
  match updates with
  | none => false
  | some us => us.length == r && (List.zipWith sameDim ((dataDims r 0 data).drop 1) (us.drop 1)).all id

def expandSourceIsRowBroadcast (x : Option (List Dimension)) (r : Nat) : Bool :=
  match x with
  | none => false
  | some xs => decide (xs.length ≤ r) && (if xs.length = r then xs.drop 1 else xs).all isOne

def patternMatchPredicate (node : ScatterNode) : Bool :=
  if node.domain.getD "" ≠ "" then false
  else if node.inputs ≠ 3 ∨ node.outputs ≠ 1 then false
  else if node.opset < 11 then false
  else if node.reduction.getD "none" ≠ "none" then false
  else
    match scatterRank node with
    | none => false
    | some r =>
      if r < 1 then false
      else
        let axis := node.axis.getD 0
        if (if axis < 0 then axis + r else axis) ≠ 0 then false
        else if !trailingDimsMatch node.data node.updatesSizes r then false
        else
          match node.indices with
          | .expand elemType sizes => elemType ≠ .other ∧ expandSourceIsRowBroadcast sizes r
          | .constant t => t.elemType ≠ .other
          | .other => false

/-- The nodes or the constant that give the indices of the rows. -/
inductive RowIndices where
  | expanded (cast broadcast : Bool)
  | constant (n : Nat) (rows : List Int)
deriving DecidableEq

def rowIndicesFromConstant (t : Constant) (r : Nat) : Option RowIndices :=
  if t.sizes.length ≠ r then none
  else
    let total := t.sizes.prod
    if total = 0 ∨ t.vals.length ≠ total then none
    else
      let n := t.sizes.headD 0
      let row := total / n
      if (List.range total).all fun i => t.vals.getD i 0 == t.vals.getD (i / row * row) 0 then
        some (.constant n ((List.range n).map fun k => t.vals.getD (k * row) 0))
      else none

def rowIndicesFromExpand (elemType : ElemType) (x updates : Option (List Dimension)) (r : Nat) : RowIndices :=
  let xs := x.getD []
  let rowsKnownEqual :=
    xs.length == r && updates.isSome && sameDim (xs.headD .unknown) ((updates.getD []).headD .unknown)
  .expanded (elemType == .int32) !rowsKnownEqual

def rewriteScatterElementsToScatterND (node : ScatterNode) : Option RowIndices :=
  if patternMatchPredicate node then
    (scatterRank node).bind fun r =>
      match node.indices with
      | .expand elemType sizes => some (rowIndicesFromExpand elemType sizes node.updatesSizes r)
      | .constant t => rowIndicesFromConstant t r
      | .other => none
  else none

def expandTo (x target : NDArray Int) : Option (NDArray Int) :=
  if ∀ v ∈ target.data, 0 ≤ v then
    (actualBroadcast2 x.shape (target.data.map Int.toNat)).map fun s =>
      NDArray.ofFn s fun p => readAt x (alignIndex x.shape p)
  else none

/-- The emitted nodes run on the input `x` of the Expand. The Cast from `int32` keeps every value. -/
def RowIndices.eval (rows : RowIndices) (x : NDArray Int) (updates : NDArray α) : Option (NDArray Int) :=
  match rows with
  | .constant n rows => some (NDArray.ofFn [n, 1] fun p => rows.getD (p.headD 0) 0)
  | .expanded _ broadcast =>
    (reshape x (vector [-1, 1])).bind fun idx =>
      if broadcast then
        (sliceVector (shapeOf updates) 0 1).bind fun n =>
          (concatVectors n (vector [1])).bind fun target => expandTo idx target
      else some idx

/-- Each update takes the place of the element at its target; the targets have to be distinct. -/
def scatter (data updates : NDArray α) (target : List Nat → Option (List Nat)) : Option (NDArray α) :=
  if (∀ p ∈ indices updates.shape, ∃ q ∈ indices data.shape, target p = some q) ∧
      ((indices updates.shape).map target).Nodup then
    some (NDArray.ofFn data.shape fun q =>
      (((indices updates.shape).find? fun p => target p == some q).map (readAt updates)).getD (readAt data q))
  else none

def scatterElements (axis : Int) (data : NDArray α) (idx : NDArray Int) (updates : NDArray α) : Option (NDArray α) :=
  (place data.shape.length axis).bind fun k =>
    if idx.shape = updates.shape ∧ updates.shape.length = data.shape.length then
      scatter data updates fun p => (place (data.shape.getD k 0) (readAt idx p)).map fun i => p.set k i
    else none

/-- Every index tuple has to be in range, also where the slices that it names are empty. -/
def scatterNd (data : NDArray α) (idx : NDArray Int) (updates : NDArray α) : Option (NDArray α) :=
  idx.shape.getLast?.bind fun k =>
    let lead := idx.shape.dropLast
    if k ≤ data.shape.length ∧ updates.shape = lead ++ data.shape.drop k ∧
        ∀ q ∈ indices lead, (placeAll (data.shape.take k) (tuple idx k q)).isSome then
      scatter data updates fun p =>
        (placeAll (data.shape.take k) (tuple idx k (p.take lead.length))).map fun ps => ps ++ p.drop lead.length
    else none

def Piece.Spells (ν : String → Nat) : Piece → List Nat → Prop
  | .constant _ _ vals, part => vals = part.map (Nat.cast : Nat → Int)
  | .computed sizes, part => Conforms ν sizes [part.length]

def ShapeVector.Spells (ν : String → Nat) : ShapeVector → List Nat → Prop
  | .constant _ _ vals, shape => vals = shape.map (Nat.cast : Nat → Int)
  | .concat _ pieces, shape => ∃ parts, List.Forall₂ (Piece.Spells ν) pieces parts ∧ shape = parts.flatten
  | .other, _ => True

/-- What is recorded of a value and of those that it is made of holds, the value having the shape. -/
def DataValue.Holds (ν : String → Nat) : DataValue → List Nat → Prop
  | .other sizes, shape => Conforms ν sizes shape
  | .constantOfShape sizes v, shape => Conforms ν sizes shape ∧ v.Spells ν shape
  | .scatter sizes data, shape => Conforms ν sizes shape ∧ data.Holds ν shape

/-- The indices are the Expand of `x` to the shape `target`, or the constant. -/
def IndicesSource.Gives (ν : String → Nat) (x target idx : NDArray Int) : IndicesSource → Prop
  | .expand _ sizes => Conforms ν sizes x.shape ∧ expandTo x target = some idx
  | .constant t => ConstantGathers.Holds t idx
  | .other => True

/-- A ScatterElements that is rewritten, on operands that it is valid on and for which the records hold. -/
structure ScatterRun (α : Type) [Inhabited α] where
  node : ScatterNode
  rows : RowIndices
  fires : rewriteScatterElementsToScatterND node = some rows
  symbols : String → Nat
  data : NDArray α
  idx : NDArray Int
  updates : NDArray α
  x : NDArray Int
  target : NDArray Int
  dataHolds : node.data.Holds symbols data.shape
  indicesHold : Conforms symbols node.indicesSizes idx.shape
  updatesHold : Conforms symbols node.updatesSizes updates.shape
  gives : node.indices.Gives symbols x target idx
  out : NDArray α
  valid : scatterElements (node.axis.getD 0) data idx updates = some out

def ScatterRun.Exact (r : ScatterRun α) : Prop :=
  ((r.rows.eval r.x r.updates).bind fun idx => scatterNd r.data idx r.updates) = some r.out

/-- The rows of the updates are empty, and an index that the Expand never writes with is out of range. -/
def ScatterRun.Misindexed (r : ScatterRun α) : Prop :=
  (∃ elemType sizes, r.node.indices = .expand elemType sizes) ∧ 0 ∈ r.updates.shape.drop 1 ∧
    r.updates.shape.headD 0 ≠ 0 ∧ ∃ v ∈ r.x.data, place (r.data.shape.headD 0) v = none

section

variable {ν : String → Nat} {shape : List Nat} {r : Nat}

theorem unknown_means (shape : List Nat) : List.Forall₂ (Means ν) (List.replicate shape.length .unknown) shape := by
  induction shape with
  | nil => exact .nil
  | cons n shape ih => exact .cons trivial ih

theorem ownDims_means {sizes : Option (List Dimension)} (h : Conforms ν sizes shape) (hr : shape.length = r) :
    List.Forall₂ (Means ν) (ownDims r sizes) shape := by
  subst hr
  cases sizes with
  | none => exact unknown_means shape
  | some ds =>
    unfold ownDims
    dsimp only
    split_ifs
    · exact h ds rfl
    · exact unknown_means shape

theorem fillDim_means {d f : Dimension} {n : Nat} (hd : Means ν d n) (hf : Means ν f n) : Means ν (fillDim d f) n := by
  cases d with
  | size a => exact hd
  | unknown =>
    cases f with
    | size b => exact hf
    | unknown => exact hd
    | param t => exact hd
  | param s =>
    cases f with
    | size b => exact hf
    | unknown => exact hd
    | param t => exact hd

variable {ds : List Dimension} {d : DataValue}

theorem zipWith_fillDim_means {fs : List Dimension} (hd : List.Forall₂ (Means ν) ds shape)
    (hf : List.Forall₂ (Means ν) fs shape) : List.Forall₂ (Means ν) (List.zipWith fillDim ds fs) shape := by
  induction hd generalizing fs with
  | nil => exact .nil
  | cons hhead hrest ih =>
    cases hf with
    | cons hhead' hrest' => exact .cons (fillDim_means hhead hhead') (ih hrest')

theorem sizes_means (shape : List Nat) :
    List.Forall₂ (Means ν) ((shape.map (Nat.cast : Nat → Int)).map Dimension.size) shape := by
  induction shape with
  | nil => exact .nil
  | cons n shape ih => exact .cons rfl ih

theorem constDims_means {int64 : Bool} {rank : Nat}
    (h : constDims int64 rank (shape.map (Nat.cast : Nat → Int)) = some ds) : List.Forall₂ (Means ν) ds shape := by
  unfold constDims at h
  split_ifs at h
  obtain rfl := Option.some.inj h
  exact sizes_means shape

theorem pieceDims_means {p : Piece} (h : pieceDims p = some ds) (hp : p.Spells ν shape) :
    List.Forall₂ (Means ν) ds shape := by
  unfold pieceDims at h
  split at h
  · next int64 rank vals =>
    have hvals : vals = shape.map (Nat.cast : Nat → Int) := hp
    rw [hvals] at h
    exact constDims_means h
  · next n =>
    obtain rfl := Option.some.inj h
    have hlen : List.Forall₂ (Means ν) [.size n] [shape.length] := hp _ rfl
    cases hlen with
    | cons hn _ =>
      have hn' : (shape.length : Int) = n := hn
      rw [← hn', Int.toNat_natCast]
      exact unknown_means shape
  · cases h

theorem flatten_means {pieces : List Piece} {parts : List (List Nat)} {dss : List (List Dimension)}
    (h : pieces.mapM pieceDims = some dss) (hp : List.Forall₂ (Piece.Spells ν) pieces parts) :
    List.Forall₂ (Means ν) dss.flatten parts.flatten := by
  induction hp generalizing dss with
  | nil =>
    obtain rfl := Option.some.inj h
    exact .nil
  | cons hhead hrest ih =>
    simp only [mapM_cons, bind_eq_bind, bind_eq_some_iff, Option.pure_def, Option.some.injEq] at h
    obtain ⟨ds, hds, rest, hdss, rfl⟩ := h
    rw [flatten_cons, flatten_cons]
    exact rel_append (pieceDims_means hds hhead) (ih hdss)

theorem shapeVectorDims_means {v : ShapeVector} (h : shapeVectorDims r v = some ds) (hv : v.Spells ν shape) :
    List.Forall₂ (Means ν) ds shape := by
  cases v with
  | constant int64 rank vals =>
    have hvals : vals = shape.map (Nat.cast : Nat → Int) := hv
    rw [hvals] at h
    obtain ⟨out, hout, hlen⟩ := bind_eq_some_iff.mp h
    split_ifs at hlen
    obtain rfl := Option.some.inj hlen
    exact constDims_means hout
  | concat axis pieces =>
    obtain ⟨parts, hparts, rfl⟩ := hv
    rw [shapeVectorDims] at h
    split_ifs at h
    obtain ⟨out, hout, hlen⟩ := bind_eq_some_iff.mp h
    split_ifs at hlen
    obtain rfl := Option.some.inj hlen
    exact flatten_means hout hparts
  | other => cases h

theorem dataDims_means {depth : Nat} (h : d.Holds ν shape) (hr : shape.length = r) :
    List.Forall₂ (Means ν) (dataDims r depth d) shape := by
  induction d generalizing depth with
  | other sizes => exact ownDims_means h hr
  | constantOfShape sizes v =>
    unfold dataDims
    split
    · next found hfound => exact zipWith_fillDim_means (ownDims_means h.1 hr) (shapeVectorDims_means hfound h.2)
    · exact ownDims_means h.1 hr
  | scatter sizes data ih =>
    unfold dataDims
    split_ifs
    · exact zipWith_fillDim_means (ownDims_means h.1 hr) (ih h.2)
    · exact ownDims_means h.1 hr

theorem DataValue.Holds.sizes (h : d.Holds ν shape) : Conforms ν d.sizes shape := by
  cases d with
  | other sizes => exact h
  | constantOfShape sizes v => exact h.1
  | scatter sizes data => exact h.1

end

variable {r : ScatterRun α}

/-- The shapes of a run: rows of one shape, as many as the updates have. -/
structure Layout (r : ScatterRun α) (n N : Nat) (U : List Nat) : Prop where
  dataShape : r.data.shape = n :: U
  updatesShape : r.updates.shape = N :: U
  idxShape : r.idx.shape = N :: U
  rank : scatterRank r.node = some (U.length + 1)
  scattered : scatter r.data r.updates (fun p => (place n (readAt r.idx p)).map fun i => p.set 0 i) = some r.out
  source : ∀ elemType sizes, r.node.indices = .expand elemType sizes →
    expandSourceIsRowBroadcast sizes (U.length + 1) = true

theorem exists_layout (r : ScatterRun α) : ∃ n N U, Layout r n N U := by
  obtain ⟨k, hk, hvalid⟩ := bind_eq_some_iff.mp r.valid
  split_ifs at hvalid with hshapes
  obtain ⟨hidx, hranks⟩ := hshapes
  have hfires := r.fires
  unfold rewriteScatterElementsToScatterND at hfires
  split_ifs at hfires with hmatch
  obtain ⟨rank, hrank, -⟩ := bind_eq_some_iff.mp hfires
  unfold patternMatchPredicate at hmatch
  split_ifs at hmatch
  rw [hrank] at hmatch
  dsimp only at hmatch
  have hlen : rank = r.data.shape.length := by
    have hdata := r.dataHolds.sizes
    unfold scatterRank at hrank
    cases hd : r.node.data.sizes with
    | some ds =>
      rw [hd] at hrank
      rw [← (hdata ds hd).length_eq]
      exact (Option.some.inj hrank).symm
    | none =>
      rw [hd] at hrank
      cases hi : r.node.indicesSizes with
      | some is =>
        rw [hi] at hrank
        rw [← hranks, ← hidx, ← (r.indicesHold is hi).length_eq]
        exact (Option.some.inj hrank).symm
      | none =>
        rw [hi] at hrank
        cases hu : r.node.updatesSizes with
        | some us =>
          rw [hu] at hrank
          rw [← hranks, ← (r.updatesHold us hu).length_eq]
          exact (Option.some.inj hrank).symm
        | none =>
          rw [hu] at hrank
          cases hrank
  by_cases hpos : rank < 1
  · rw [if_pos hpos] at hmatch
    cases hmatch
  rw [if_neg hpos] at hmatch
  by_cases haxis : (if r.node.axis.getD 0 < 0 then r.node.axis.getD 0 + rank else r.node.axis.getD 0) ≠ 0
  · rw [if_pos haxis] at hmatch
    cases hmatch
  rw [if_neg haxis] at hmatch
  split_ifs at hmatch with htrailing
  rw [not_ne_iff] at haxis
  -- The axis is the first one, for the pass and for the operator.
  have hk₀ : k = 0 := by
    obtain ⟨hlt, hfront | hback⟩ := place_eq_some.mp hk
    · rw [if_neg (by omega)] at haxis
      omega
    · rw [if_pos (by omega)] at haxis
      omega
  subst hk₀
  obtain ⟨n, V, hdata⟩ : ∃ n V, r.data.shape = n :: V := by
    cases hd : r.data.shape with
    | nil =>
      rw [hd] at hlen
      exact absurd hlen (by rw [length_nil]; omega)
    | cons n V => exact ⟨n, V, rfl⟩
  obtain ⟨N, U, hupdates⟩ : ∃ N U, r.updates.shape = N :: U := by
    cases hu : r.updates.shape with
    | nil =>
      rw [hu, hdata] at hranks
      cases hranks
    | cons N U => exact ⟨N, U, rfl⟩
  have hUV : V.length = U.length := by
    rw [hdata, hupdates] at hranks
    exact (Nat.succ.inj hranks).symm
  have htail : V = U := by
    rw [Bool.not_eq_true, Bool.not_eq_false'] at htrailing
    unfold trailingDimsMatch at htrailing
    cases hu : r.node.updatesSizes with
    | none =>
      rw [hu] at htrailing
      cases htrailing
    | some us =>
      rw [hu] at htrailing
      rw [Bool.and_eq_true] at htrailing
      have hmeans : List.Forall₂ (Means r.symbols) (dataDims rank 0 r.node.data) r.data.shape :=
        dataDims_means r.dataHolds hlen.symm
      have hds := forall₂_drop 1 hmeans
      have hus := forall₂_drop 1 (r.updatesHold us hu)
      rw [hdata, drop_succ_cons, drop_zero] at hds
      rw [hupdates, drop_succ_cons, drop_zero] at hus
      exact eq_of_forall_sameDim htrailing.2 hds hus hUV
  subst htail
  have hrank' : rank = V.length + 1 := by rw [hlen, hdata, length_cons]
  refine ⟨n, N, V, ⟨hdata, hupdates, hidx.trans hupdates, by rw [hrank, hrank'], ?_, ?_⟩⟩
  · rw [hdata] at hvalid
    exact hvalid
  · intro elemType sizes hi
    rw [hi] at hmatch
    have hboth : elemType ≠ .other ∧ expandSourceIsRowBroadcast sizes rank = true := by simpa using hmatch
    rw [hrank'] at hboth
    exact hboth.2

variable {x : NDArray Int} {m : Nat} {out : NDArray α} {n N : Nat} {U : List Nat}

theorem exists_mem_indices {s : List Nat} (h : ∀ n ∈ s, 0 < n) : ∃ p, p ∈ indices s := by
  induction s with
  | nil => exact ⟨[], mem_singleton.mpr rfl⟩
  | cons n s ih =>
    obtain ⟨p, hp⟩ := ih fun m hm => h m (mem_cons_of_mem n hm)
    exact ⟨0 :: p, mem_indices_cons.mpr ⟨h n mem_cons_self, hp⟩⟩

/-- The indices of the rows: what the full indices hold in each row, wherever a row has elements. -/
structure RowsOf (N : Nat) (U : List Nat) (idx ri : NDArray Int) : Prop where
  shape : ri.shape = [N, 1]
  reads : ∀ i < N, ∀ t ∈ indices U, readAt idx (i :: t) = readAt ri [i, 0]

variable {p : List Nat} {i : Nat} {updates : NDArray α} {idx : NDArray Int}

theorem readAt_row {t : NDArray Int} (hs : t.shape = N :: U) (hi : i < N) (hp : p ∈ indices U) :
    ∃ o < U.prod, offset U p = some o ∧ readAt t (i :: p) = t.data.getD (i * U.prod + o) 0 := by
  obtain ⟨o, ho, hoff⟩ := offset_of_mem_indices hp
  refine ⟨o, ho, hoff, ?_⟩
  rw [readAt, NDArray.get?, hs, offset, if_pos hi, hoff, map_some, bind_some, getD_eq_getElem?_getD]
  rfl

omit [Inhabited α] in
theorem rowsOf_constant {t : Constant} {rows : RowIndices} {r : Nat} (h : rowIndicesFromConstant t r = some rows)
    (hidx : ConstantGathers.Holds t idx) (hs : idx.shape = N :: U) :
    ∃ ri, rows.eval x updates = some ri ∧ RowsOf N U idx ri ∧ 0 ∉ U := by
  obtain ⟨hsizes, hvals⟩ := hidx
  unfold rowIndicesFromConstant at h
  rw [← hsizes, hs] at h
  dsimp only at h
  split_ifs at h with hrank htotal hscan
  obtain rfl := Option.some.inj h
  rw [not_or] at htotal
  have hN : 0 < N := by
    apply Nat.pos_of_ne_zero
    rintro rfl
    exact htotal.1 (by simp)
  have hU : 0 ∉ U := fun hmem => htotal.1 (prod_eq_zero (mem_cons_of_mem N hmem))
  have hUpos : 0 < U.prod := Nat.pos_of_ne_zero fun hz => hU (prod_eq_zero_iff.mp hz)
  have hrow : (N :: U).prod / N = U.prod := by rw [prod_cons, Nat.mul_div_cancel_left _ hN]
  have hfirst : (N :: U).headD 0 = N := rfl
  rw [hfirst, hrow] at hscan
  rw [hfirst, hrow]
  refine ⟨_, rfl, ⟨rfl, ?_⟩, hU⟩
  intro i hi p hp
  obtain ⟨o, ho, -, hread⟩ := readAt_row hs hi hp
  have hmem : [i, 0] ∈ indices [N, 1] :=
    mem_indices_cons.mpr ⟨hi, mem_indices_cons.mpr ⟨Nat.one_pos, mem_singleton.mpr rfl⟩⟩
  have hplace : i * U.prod + o < (N :: U).prod := by
    have hstep : (i + 1) * U.prod ≤ N * U.prod := Nat.mul_le_mul_right _ hi
    rw [Nat.succ_mul] at hstep
    rw [prod_cons]
    omega
  have hsame := List.all_eq_true.mp hscan _ (mem_range.mpr hplace)
  have hdiv : (i * U.prod + o) / U.prod = i := by
    rw [Nat.mul_comm, Nat.mul_add_div hUpos, Nat.div_eq_of_lt ho, Nat.add_zero]
  rw [beq_iff_eq, hdiv] at hsame
  rw [hread, hvals, hsame, readAt_ofFn _ hmem]
  simp [hi]

theorem prod_ones (m : Nat) : (List.replicate m 1).prod = 1 := by rw [prod_replicate, one_pow]

theorem align_ones (h : m ≤ p.length) : alignIndex (List.replicate m 1) p = List.replicate m 0 := by
  rw [alignIndex, length_replicate]
  apply ext_getElem
  · rw [length_zipWith, length_replicate, length_replicate, List.length_drop]
    omega
  · intro i h₁ h₂
    simp

theorem column_of_expand {target : NDArray Int} {sizes : Option (List Dimension)} {ν : String → Nat}
    (hsource : expandSourceIsRowBroadcast sizes (U.length + 1) = true) (hsizes : Conforms ν sizes x.shape)
    (hexpand : expandTo x target = some idx) (hs : idx.shape = N :: U) :
    ∃ m, x.data.length = m ∧ (m = N ∨ m = 1) ∧ (x.shape.length = U.length + 1 → x.shape.headD 0 = m) ∧
      ∀ i < N, ∀ t ∈ indices U, readAt idx (i :: t) = x.data.getD (if m = 1 then 0 else i) 0 := by
  unfold expandTo at hexpand
  split_ifs at hexpand with hnonneg
  obtain ⟨s, hbroadcast, rfl⟩ := map_eq_some_iff.mp hexpand
  have hs' : s = N :: U := hs
  subst hs'
  cases sizes with
  | none => cases hsource
  | some xs =>
    unfold expandSourceIsRowBroadcast at hsource
    rw [Bool.and_eq_true, decide_eq_true_eq] at hsource
    obtain ⟨hle, hones⟩ := hsource
    have hconf := hsizes xs rfl
    rw [hconf.length_eq] at hle hones
    have hread : ∀ i < N, ∀ t ∈ indices U, readAt (NDArray.ofFn (N :: U) fun p => readAt x (alignIndex x.shape p)) (i :: t) =
        readAt x (alignIndex x.shape (i :: t)) :=
      fun i hi t ht => readAt_ofFn _ (mem_indices_cons.mpr ⟨hi, ht⟩)
    have hdata : ∀ p o, offset x.shape p = some o → readAt x p = x.data.getD o 0 := by
      intro p o ho
      rw [readAt, NDArray.get?, ho, bind_some, getD_eq_getElem?_getD]
      rfl
    by_cases hfull : x.shape.length = U.length + 1
    · rw [if_pos hfull] at hones
      obtain ⟨m, rest, hx⟩ : ∃ m rest, x.shape = m :: rest := by
        cases hshape : x.shape with
        | nil =>
          rw [hshape] at hfull
          cases hfull
        | cons m rest => exact ⟨m, rest, rfl⟩
      have hrest : rest = List.replicate U.length 1 := by
        have hdrop := forall₂_drop 1 hconf
        rw [hx, drop_succ_cons, drop_zero] at hdrop
        have hlen : rest.length = U.length := by
          rw [hx] at hfull
          exact Nat.succ.inj hfull
        rw [← hlen]
        exact eq_ones_of_all_isOne hones hdrop
      have hprod : x.data.length = m := by rw [x.length_data, hx, hrest, prod_cons, prod_ones, Nat.mul_one]
      have hfit : m = N ∨ m = 1 := by
        have hpadlen : (actualPad (max x.shape.length (target.data.map Int.toNat).length) x.shape).length =
            (actualPad (max x.shape.length (target.data.map Int.toNat).length) (target.data.map Int.toNat)).length := by
          simp only [actualPad, length_append, length_replicate]
          omega
        have hfits := Spreading.repeats_left hbroadcast hpadlen
        have htotal := hfits.length_eq
        have hpad : actualPad (max x.shape.length (target.data.map Int.toNat).length) x.shape = m :: rest := by
          rw [← hx]
          unfold actualPad at htotal ⊢
          rw [length_append, length_replicate, length_cons] at htotal
          rw [show max x.shape.length (target.data.map Int.toNat).length - x.shape.length = 0 by omega]
          rfl
        rw [hpad] at hfits
        cases hfits with
        | cons hhead _ => exact hhead
      refine ⟨m, hprod, hfit, fun _ => by rw [hx]; rfl, ?_⟩
      intro i hi t ht
      have htlen := length_of_mem_indices ht
      rw [hread i hi t ht]
      apply hdata
      have halign : alignIndex x.shape (i :: t) = (if m = 1 then 0 else i) :: List.replicate U.length 0 := by
        have hzero : (i :: t).length - (m :: List.replicate U.length 1).length = 0 := by simp [htlen]
        have htail := align_ones (m := U.length) (p := t) htlen.ge
        rw [alignIndex, length_replicate, htlen, Nat.sub_self, drop_zero] at htail
        rw [hx, hrest, alignIndex, hzero, drop_zero, zipWith_cons_cons, htail]
      have hin : (if m = 1 then 0 else i) < m := by
        split_ifs
        · omega
        · omega
      rw [halign, hx, hrest, offset, if_pos hin, GatherNd.offset_zeros, map_some, prod_ones, Nat.mul_one,
        Nat.add_zero]
    · rw [if_neg hfull] at hones
      have hx : x.shape = List.replicate x.shape.length 1 := eq_ones_of_all_isOne hones hconf
      have hprod : x.data.length = 1 := by rw [x.length_data, hx, prod_ones]
      refine ⟨1, hprod, .inr rfl, fun h => absurd h hfull, ?_⟩
      intro i hi t ht
      have htlen := length_of_mem_indices ht
      rw [hread i hi t ht]
      apply hdata
      have halign : alignIndex x.shape (i :: t) = List.replicate x.shape.length 0 := by
        rw [hx, length_replicate]
        apply align_ones
        rw [length_cons]
        omega
      rw [halign, hx, length_replicate, GatherNd.offset_zeros, if_pos rfl]

theorem reshape_column (hm : x.data.length = m) :
    ∃ y, reshape x (vector [-1, 1]) = some y ∧ y.shape = [m, 1] ∧ y.data = x.data := by
  have hprod : x.shape.prod = m := x.length_data.symm.trans hm
  have hentries : entryDims false x.shape 0 [-1, 1] = some (([] : List Nat).map some ++ none :: [1].map some) := rfl
  have htarget : targetDims false x.shape (vector [-1, 1]).data = some [m, 1] := by
    have hinferred := Views.targetDims_one_inferred hentries
    have hdvd : ([] ++ [1] : List Nat).prod ≠ 0 ∧ ([] ++ [1] : List Nat).prod ∣ x.shape.prod := by simp
    rw [if_pos hdvd, hprod] at hinferred
    show targetDims false x.shape [-1, 1] = some [m, 1]
    simpa using hinferred
  exact reshape_eq_some htarget (by rw [hprod]; simp)

theorem readAt_column {y : NDArray Int} (hs : y.shape = [m, 1]) (hi : i < m) : readAt y [i, 0] = y.data.getD i 0 := by
  have hoff : offset [m, 1] [i, 0] = some i := by
    rw [offset, if_pos hi]
    simp [offset]
  rw [readAt, NDArray.get?, hs, hoff, bind_some, getD_eq_getElem?_getD]
  rfl

omit [Inhabited α] in
/-- The emitted nodes give the column, repeated along the rows of the updates if there is one value only. -/
theorem eval_expanded {cast broadcast : Bool} (hm : x.data.length = m) (hfit : m = N ∨ m = 1)
    (hequal : broadcast = false → m = N) (hs : updates.shape = N :: U) :
    ∃ ri, (RowIndices.expanded cast broadcast).eval x updates = some ri ∧ ri.shape = [N, 1] ∧
      ∀ i < N, readAt ri [i, 0] = x.data.getD (if m = 1 then 0 else i) 0 := by
  obtain ⟨y, hy, hyshape, hydata⟩ := reshape_column hm
  cases broadcast with
  | false =>
    have hmN := hequal rfl
    subst hmN
    refine ⟨y, by rw [RowIndices.eval, hy]; rfl, hyshape, ?_⟩
    intro i hi
    rw [readAt_column hyshape hi, hydata]
    by_cases hone : m = 1
    · rw [if_pos hone, show i = 0 by omega]
    · rw [if_neg hone]
  | true =>
    have hslice : sliceVector (shapeOf updates) 0 1 = some (vector [(N : Int)]) := by
      have hrank : (shapeOf updates).shape.length = 1 := rfl
      have hdata : (shapeOf updates).data = (N :: U).map (Nat.cast : Nat → Int) := by rw [← hs]; rfl
      rw [sliceVector, if_pos hrank, hdata]
      rfl
    have hconcat : concatVectors (vector [(N : Int)]) (vector [1]) = some (vector [(N : Int), 1]) := rfl
    have hnonneg : ∀ v ∈ (vector [(N : Int), 1]).data, 0 ≤ v := by
      intro v hv
      have hcases : v = N ∨ v = 1 := by simpa [vector] using hv
      omega
    have hnat : (vector [(N : Int), 1]).data.map Int.toNat = [N, 1] := by simp [vector]
    have hdim : actualBroadcastDim m N = some N := by
      unfold actualBroadcastDim
      split_ifs with h₁ h₂ h₃
      · rw [h₁]
      · rfl
      · omega
      · omega
    have hbroadcast : actualBroadcast2 [m, 1] [N, 1] = some [N, 1] := by
      show actualBroadcastDims [m, 1] [N, 1] = some [N, 1]
      rw [actualBroadcastDims, hdim]
      rfl
    have hexpand : expandTo y (vector [(N : Int), 1]) =
        some (NDArray.ofFn [N, 1] fun p => readAt y (alignIndex y.shape p)) := by
      rw [expandTo, if_pos hnonneg, hnat, hyshape, hbroadcast, map_some]
    refine ⟨_, by rw [RowIndices.eval, hy, bind_some, if_pos rfl, hslice, bind_some, hconcat]; exact hexpand,
      rfl, ?_⟩
    intro i hi
    have hmem : [i, 0] ∈ indices [N, 1] :=
      mem_indices_cons.mpr ⟨hi, mem_indices_cons.mpr ⟨Nat.one_pos, mem_singleton.mpr rfl⟩⟩
    have halign : alignIndex y.shape [i, 0] = [if m = 1 then 0 else i, 0] := by
      rw [hyshape]
      rfl
    have hin : (if m = 1 then 0 else i) < m := by
      split_ifs
      · omega
      · omega
    rw [readAt_ofFn _ hmem, halign, readAt_column hyshape hin, hydata]

variable {data : NDArray α} {ri : NDArray Int}

theorem scatter_congr {target target' : List Nat → Option (List Nat)}
    (h : ∀ p ∈ indices updates.shape, target p = target' p) :
    scatter data updates target = scatter data updates target' := by
  have hmap : (indices updates.shape).map target = (indices updates.shape).map target' := map_congr_left h
  have hrange : (∀ p ∈ indices updates.shape, ∃ q ∈ indices data.shape, target p = some q) ↔
      ∀ p ∈ indices updates.shape, ∃ q ∈ indices data.shape, target' p = some q := by
    apply forall_congr'
    intro p
    apply imp_congr_right
    intro hp
    rw [h p hp]
  have hfind : ∀ q, (indices updates.shape).find? (fun p => target p == some q) =
      (indices updates.shape).find? fun p => target' p == some q := by
    intro q
    apply find?_congr
    intro p hp
    rw [h p hp]
  unfold scatter
  simp only [hmap, hrange, hfind]

theorem placeAll_one (n : Nat) (v : Int) : placeAll [n] [v] = (place n v).map fun a => [a] := by
  rw [placeAll]
  cases place n v with
  | none => rfl
  | some a => rfl

theorem scatterNd_iff (hdata : data.shape = n :: U) (hupdates : updates.shape = N :: U) (hrows : RowsOf N U idx ri)
    (hout : scatter data updates (fun p => (place n (readAt idx p)).map fun i => p.set 0 i) = some out) :
    scatterNd data ri updates = some out ↔ ∀ i < N, (place n (readAt ri [i, 0])).isSome := by
  have hlast : ri.shape.getLast? = some 1 := by rw [hrows.shape]; rfl
  have hlead : ri.shape.dropLast = [N] := by rw [hrows.shape]; rfl
  have htuple : ∀ i, tuple ri 1 [i] = [readAt ri [i, 0]] := fun i => rfl
  have htake : data.shape.take 1 = [n] := by rw [hdata]; rfl
  have hdrop : data.shape.drop 1 = U := by rw [hdata]; rfl
  have hlen : 1 ≤ data.shape.length := by
    rw [hdata, length_cons]
    omega
  have hrange : (∀ q ∈ indices [N], (placeAll [n] (tuple ri 1 q)).isSome) ↔
      ∀ i < N, (place n (readAt ri [i, 0])).isSome := by
    constructor
    · intro h i hi
      have hq := h [i] (mem_indices_cons.mpr ⟨hi, mem_singleton.mpr rfl⟩)
      rwa [htuple, placeAll_one, isSome_map] at hq
    · intro h q hq
      obtain ⟨i, rest, rfl, hi, hrest⟩ := exists_of_mem_indices_cons hq
      obtain rfl := mem_singleton.mp hrest
      rw [htuple, placeAll_one, isSome_map]
      exact h i hi
  have hsame : scatter data updates (fun p =>
      (placeAll [n] (tuple ri 1 (p.take 1))).map fun ps => ps ++ p.drop 1) = some out := by
    rw [← hout]
    apply scatter_congr
    intro p hp
    rw [hupdates] at hp
    obtain ⟨i, t, rfl, hi, ht⟩ := exists_of_mem_indices_cons hp
    have htake₁ : (i :: t).take 1 = [i] := rfl
    have hdrop₁ : (i :: t).drop 1 = t := rfl
    rw [htake₁, hdrop₁, htuple, placeAll_one, Option.map_map, hrows.reads i hi t ht]
    rfl
  unfold scatterNd
  rw [hlast, bind_some, hlead]
  dsimp only
  rw [htake, hdrop, length_singleton, hsame]
  constructor
  · intro h
    split_ifs at h with hcond
    exact hrange.mp hcond.2.2
  · intro h
    exact if_pos ⟨hlen, hupdates, hrange.mpr h⟩

theorem inRange_of_scatter {data : NDArray α} {idx ri : NDArray Int} {n : Nat} (hupdates : updates.shape = N :: U)
    (hrows : RowsOf N U idx ri) (hU : 0 ∉ U)
    (hout : scatter data updates (fun p => (place n (readAt idx p)).map fun i => p.set 0 i) = some out) :
    ∀ i < N, (place n (readAt ri [i, 0])).isSome := by
  intro i hi
  obtain ⟨t, ht⟩ := exists_mem_indices fun m hm => Nat.pos_of_ne_zero fun hz => hU (hz ▸ hm)
  unfold scatter at hout
  split_ifs at hout with hcond
  have hp : i :: t ∈ indices updates.shape := by
    rw [hupdates]
    exact mem_indices_cons.mpr ⟨hi, ht⟩
  obtain ⟨q, -, hq⟩ := hcond.1 _ hp
  obtain ⟨a, ha, -⟩ := map_eq_some_iff.mp hq
  rw [← hrows.reads i hi t ht, ha]
  rfl

omit [Inhabited α] in
theorem rows_equal {sizes : Option (List Dimension)} {ν : String → Nat} {us : Option (List Dimension)}
    (hs : updates.shape = N :: U) (hx : Conforms ν sizes x.shape) (hu : Conforms ν us updates.shape)
    (hhead : x.shape.length = U.length + 1 → x.shape.headD 0 = m)
    (h : ((sizes.getD []).length == U.length + 1 && us.isSome &&
      sameDim ((sizes.getD []).headD .unknown) ((us.getD []).headD .unknown)) = true) :
    m = N := by
  rw [Bool.and_eq_true, Bool.and_eq_true, beq_iff_eq] at h
  obtain ⟨⟨hlen, hsome⟩, hsame⟩ := h
  cases us with
  | none => cases hsome
  | some us =>
    cases sizes with
    | none => cases hlen
    | some xs =>
      have hxs := hx xs rfl
      have hus := hu us rfl
      have hxlen : x.shape.length = U.length + 1 := hxs.length_eq.symm.trans hlen
      rw [getD_some, getD_some] at hsame
      rw [hs] at hus
      cases hus with
      | cons hN _ =>
        have hm := hhead hxlen
        cases hshape : x.shape with
        | nil =>
          rw [hshape] at hxlen
          cases hxlen
        | cons a rest =>
          rw [hshape] at hxs hm
          cases hxs with
          | cons ha _ => exact hm.symm.trans (eq_of_sameDim hsame ha hN)

theorem forall_data_iff {xs : List Int} {P : Int → Prop} (hm : xs.length = m) (hfit : m = N ∨ m = 1) (hN : N ≠ 0) :
    (∀ i < N, P (xs.getD (if m = 1 then 0 else i) 0)) ↔ ∀ v ∈ xs, P v := by
  have hread : ∀ j (hj : j < xs.length), xs.getD j 0 = xs[j] := by
    intro j hj
    simp [hj]
  constructor
  · intro h v hv
    obtain ⟨j, hj, rfl⟩ := getElem_of_mem hv
    by_cases hone : m = 1
    · have hzero : j = 0 := by omega
      subst hzero
      have hfirst := h 0 (Nat.pos_of_ne_zero hN)
      rw [if_pos hone, hread 0 hj] at hfirst
      exact hfirst
    · have hrow := h j (by omega)
      rw [if_neg hone, hread j hj] at hrow
      exact hrow
  · intro h i hi
    have hj : (if m = 1 then 0 else i) < xs.length := by
      split_ifs
      · omega
      · omega
    rw [hread _ hj]
    exact h _ (getElem_mem hj)

/-- The rewrite is exact but where an index that is not used is out of range. -/
theorem scatter_rewrite_exact_iff (r : ScatterRun α) : r.Exact ↔ ¬ r.Misindexed := by
  obtain ⟨n, N, U, h⟩ := exists_layout r
  have hfires := r.fires
  unfold rewriteScatterElementsToScatterND at hfires
  split_ifs at hfires with hmatch
  rw [h.rank, bind_some] at hfires
  have hgives := r.gives
  cases hi : r.node.indices with
  | other =>
    rw [hi] at hfires
    cases hfires
  | constant t =>
    rw [hi] at hfires hgives
    have hconstant : ∃ ri, r.rows.eval r.x r.updates = some ri ∧ RowsOf N U r.idx ri ∧ 0 ∉ U :=
      rowsOf_constant hfires hgives h.idxShape
    obtain ⟨ri, heval, hrows, hU⟩ := hconstant
    have hrange := inRange_of_scatter h.updatesShape hrows hU h.scattered
    rw [ScatterRun.Exact, heval, bind_some, scatterNd_iff h.dataShape h.updatesShape hrows h.scattered]
    refine iff_of_true hrange ?_
    rintro ⟨⟨elemType, sizes, hexpand⟩, -⟩
    rw [hi] at hexpand
    cases hexpand
  | expand elemType sizes =>
    have hsource := h.source elemType sizes hi
    rw [hi] at hfires hgives
    obtain ⟨m, hm, hfit, hhead, hreads⟩ := column_of_expand hsource hgives.1 hgives.2 h.idxShape
    obtain ⟨broadcast, hrowsEq, hequal⟩ : ∃ broadcast, r.rows = .expanded (elemType == .int32) broadcast ∧
        (broadcast = false → m = N) := by
      refine ⟨_, (Option.some.inj hfires).symm, ?_⟩
      intro hfalse
      exact rows_equal h.updatesShape hgives.1 r.updatesHold hhead (by simpa using hfalse)
    obtain ⟨ri, heval, hshape, hri⟩ := eval_expanded hm hfit hequal h.updatesShape
    have hrows : RowsOf N U r.idx ri := ⟨hshape, fun i hi t ht => by rw [hreads i hi t ht, hri i hi]⟩
    rw [ScatterRun.Exact, hrowsEq, heval, bind_some, scatterNd_iff h.dataShape h.updatesShape hrows h.scattered]
    have hmisindexed : r.Misindexed ↔ 0 ∈ U ∧ N ≠ 0 ∧ ∃ v ∈ r.x.data, place n v = none := by
      rw [ScatterRun.Misindexed, h.dataShape, h.updatesShape]
      exact and_iff_right ⟨elemType, sizes, hi⟩
    rw [hmisindexed]
    by_cases hU : 0 ∈ U
    · by_cases hN : N = 0
      · subst hN
        exact iff_of_true (fun i hi => absurd hi (Nat.not_lt_zero i)) fun hmis => hmis.2.1 rfl
      · have hread : (∀ i < N, (place n (readAt ri [i, 0])).isSome) ↔
            ∀ i < N, (place n (r.x.data.getD (if m = 1 then 0 else i) 0)).isSome := by
          apply forall_congr'
          intro i
          apply imp_congr_right
          intro hi
          rw [hri i hi]
        have hall : (∀ i < N, (place n (r.x.data.getD (if m = 1 then 0 else i) 0)).isSome) ↔
            ∀ v ∈ r.x.data, (place n v).isSome := forall_data_iff (P := fun v => (place n v).isSome) hm hfit hN
        rw [hread, hall]
        simp [hU, hN, isSome_iff_ne_none]
    · exact iff_of_true (inRange_of_scatter h.updatesShape hrows hU h.scattered) fun hmis => hU hmis.1

/-- Two rows are replaced, one of them counted from the end; the rows of the updates are not known to be two. -/
theorem expanded_rows_scattered :
    ∃ r : ScatterRun Int, r.data = ⟨[3, 2], [1, 2, 3, 4, 5, 6], rfl⟩ ∧ r.idx = ⟨[2, 2], [-1, -1, 0, 0], rfl⟩ ∧
      r.updates = ⟨[2, 2], [7, 8, 9, 0], rfl⟩ ∧ r.out = ⟨[3, 2], [9, 0, 3, 4, 7, 8], rfl⟩ ∧ r.Exact :=
  ⟨⟨⟨none, 3, 1, 16, none, none, .other (some [.unknown, .size 2]), .expand .int32 (some [.size 2, .size 1]), none,
    some [.unknown, .size 2]⟩, .expanded true true, by decide, fun _ => 0, ⟨[3, 2], [1, 2, 3, 4, 5, 6], rfl⟩,
    ⟨[2, 2], [-1, -1, 0, 0], rfl⟩, ⟨[2, 2], [7, 8, 9, 0], rfl⟩, ⟨[2, 1], [-1, 0], rfl⟩, ⟨[2], [2, 2], rfl⟩,
    conforms_some (.cons trivial (.cons rfl .nil)), nofun,
    conforms_some (.cons trivial (.cons rfl .nil)),
    ⟨conforms_some (.cons rfl (.cons rfl .nil)), by decide⟩,
    ⟨[3, 2], [9, 0, 3, 4, 7, 8], rfl⟩, by decide⟩, rfl, rfl, rfl, rfl,
    (scatter_rewrite_exact_iff _).mpr fun h => absurd h.2.1 (by decide)⟩

/-- The indices are empty, and the column that they are expanded from is read for the first time. -/
theorem unused_indices_read :
    ∃ r : ScatterRun Int, r.data = ⟨[3, 0], [], rfl⟩ ∧ r.idx = ⟨[2, 0], [], rfl⟩ ∧ r.updates = ⟨[2, 0], [], rfl⟩ ∧
      r.x = ⟨[2, 1], [7, 8], rfl⟩ ∧ r.out = ⟨[3, 0], [], rfl⟩ ∧ ¬ r.Exact := by
  refine ⟨⟨⟨none, 3, 1, 16, none, none, .other (some [.size 3, .size 0]), .expand .int64 (some [.size 2, .size 1]), none,
    some [.size 2, .size 0]⟩, .expanded false false, by decide, fun _ => 0, ⟨[3, 0], [], rfl⟩, ⟨[2, 0], [], rfl⟩,
    ⟨[2, 0], [], rfl⟩, ⟨[2, 1], [7, 8], rfl⟩, ⟨[2], [2, 0], rfl⟩,
    conforms_some (.cons rfl (.cons rfl .nil)), nofun,
    conforms_some (.cons rfl (.cons rfl .nil)),
    ⟨conforms_some (.cons rfl (.cons rfl .nil)), by decide⟩,
    ⟨[3, 0], [], rfl⟩, by decide⟩, rfl, rfl, rfl, rfl, rfl, ?_⟩
  rw [ScatterRun.Exact]
  decide

end Onnxsim.Passes.Scatters
