import Mathlib.Algebra.BigOperators.Ring.Finset
import Onnxsim.Passes.Gathers

namespace Onnxsim.Passes.SplitGathers

open List Option Overflow.Arrays Gathers
open Reduce.Fusion (Dimension)

/-- `axis` is the attribute of that name; the domain is empty when there is none. -/
structure Node where
  kind : String
  domain : String
  docString : Option String
  axis : Option Int
  inputs : List String
  outputs : List String
deriving DecidableEq

/-- Each value has the node that produces it; the sizes are none when even the rank is not known. -/
structure Graph where
  producer : String → Node
  sizes : String → Option (List Dimension)
  mem_outputs : ∀ v, v ∈ (producer v).outputs

def kMaxIndicesPerGather : Int := 2 ^ 16

def kMaxChunks : Nat := 1024

def kSizeLimitedGatherSplitMarker : String := "onnxsim_size_limited_gather_split"

/-- `room` is the number of chunks that may still be added. -/
def chunkLoop (chunkRows : Int) (room : Nat) (remaining : Int) : Option (List Int) :=
  if 0 < remaining then
    match room with
    | 0 => none
    | room + 1 => (chunkLoop chunkRows room (remaining - min chunkRows remaining)).map (min chunkRows remaining :: ·)
  else some []

def computeChunkSizes (dim0 perRow : Int) : List Int :=
  if dim0 ≤ 1 ∨ kMaxIndicesPerGather < perRow then []
  else (chunkLoop (max 1 (kMaxIndicesPerGather.tdiv perRow)) kMaxChunks dim0).getD []

def chunkSizes (g : Graph) (indices : String) : List Int :=
  match (g.sizes indices).bind fun ds => ds.mapM knownSize with
  | some (dim0 :: dims) =>
    if (dim0 :: dims).prod ≤ kMaxIndicesPerGather then []
    else computeChunkSizes dim0 ((dim0 :: dims).prod.tdiv dim0)
  | _ => []

/-- The nodes that stand for one large Gather: a Split of the indices, a Gather for each of its outputs and a
Concat of these. The sizes are an attribute of the Split before opset 13. -/
structure Chunked where
  splitAxis : Int
  docString : String
  sizes : List Int
  sizesAsInput : Bool
  gatherAxis : Int
  concatAxis : Int
deriving DecidableEq

def splitLargeGather (opset : Int) (g : Graph) (node : Node) : Option Chunked :=
  match node.inputs, node.outputs with
  | [_, indices], [_] =>
    if node.kind = "Gather" ∧ node.domain = "" ∧ chunkSizes g indices ≠ [] then
      some ⟨0, kSizeLimitedGatherSplitMarker, chunkSizes g indices, opset = 0 ∨ 13 ≤ opset, node.axis.getD 0,
        node.axis.getD 0⟩
    else none
  | _, _ => none

def isGatherOf (data : String) (ga : Int) (node : Node) (indices : String) : Prop :=
  node.kind = "Gather" ∧ node.domain = "" ∧ node.inputs = [data, indices] ∧ node.outputs.length = 1 ∧
    node.axis.getD 0 = ga

instance (data : String) (ga : Int) (node : Node) (indices : String) : Decidable (isGatherOf data ga node indices) :=
  inferInstanceAs (Decidable (_ ∧ _))

/-- A negative axis is moved by a rank, which has to be known. -/
def normalized (axis : Int) (rank : Option Int) : Option Int := if axis < 0 then rank.map fun r => axis + r else some axis

def Graph.rank (g : Graph) (v : String) : Option Int := (g.sizes v).map fun ds => (ds.length : Int)

def axesAgree (g : Graph) (data idx : String) (ga sa ca : Int) : Prop :=
  ∃ gaNorm ∈ normalized ga (g.rank data), ∃ saNorm ∈ normalized sa (g.rank idx),
    ∃ caNorm ∈ normalized ca ((g.rank data).bind fun r => (g.rank idx).map fun q => r - 1 + q), caNorm = gaNorm + saNorm

instance (g : Graph) (data idx : String) (ga sa ca : Int) : Decidable (axesAgree g data idx ga sa ca) :=
  inferInstanceAs (Decidable (∃ gaNorm ∈ normalized ga (g.rank data), _))

/-- The Gather that replaces a Concat of Gathers from the outputs of one Split. -/
def fuseSplitGatherConcat (g : Graph) (node : Node) : Option Node :=
  match node.inputs.map g.producer, node.outputs, node.axis with
  | gather :: gathers, [out], some ca =>
    match gather.inputs with
    | [data, piece] =>
      let split := g.producer piece
      match split.inputs with
      | idx :: _ =>
        if node.kind = "Concat" ∧ node.domain = "" ∧ split.kind = "Split" ∧ split.domain = "" ∧
            split.outputs.length = node.inputs.length ∧ split.docString ≠ some kSizeLimitedGatherSplitMarker ∧
            List.Forall₂ (isGatherOf data (gather.axis.getD 0)) (gather :: gathers) split.outputs ∧
            axesAgree g data idx (gather.axis.getD 0) (split.axis.getD 0) ca then
          some ⟨"Gather", "", none, some (gather.axis.getD 0), [data, idx], [out]⟩
        else none
      | [] => none
    | _ => none
  | _, _, _ => none

section

variable {α : Type} [Inhabited α]

def Chunked.run (c : Chunked) (data : NDArray α) (idx : NDArray Int) : Option (NDArray α) := do
  let chunks ← split c.splitAxis (c.sizes.map Int.toNat) idx
  let parts ← chunks.mapM (gather c.gatherAxis data)
  concat c.concatAxis parts

/-- The chunks are not empty, they cover the first axis, and none holds more indices than the limit. -/
structure Covers (sizes : List Int) (dim0 perRow : Nat) : Prop where
  pos : ∀ c ∈ sizes, 0 < c
  sum_eq : sizes.sum = dim0
  within : ∀ c ∈ sizes, c * perRow ≤ kMaxIndicesPerGather

/-- The nodes compute what the Gather computes, from chunks that cover the indices. -/
structure SplitCorrect (c : Chunked) (data : NDArray α) (idx : NDArray Int) (y : NDArray α) : Prop where
  covers : ∃ dim0 rest, idx.shape = dim0 :: rest ∧ Covers c.sizes dim0 rest.prod
  run_eq : c.run data idx = some y

/-- The tensors that the values of a graph hold, as data and as indices. -/
structure Valuation (α : Type) where
  data : String → NDArray α
  ints : String → NDArray Int

def Valuation.Gathers (val : Valuation α) (node : Node) : Prop :=
  ∀ data idx out, node.inputs = [data, idx] → node.outputs = [out] →
    gather (node.axis.getD 0) (val.data data) (val.ints idx) = some (val.data out)

/-- A run of the nodes that feed a Concat. -/
structure Run (g : Graph) (val : Valuation α) (node : Node) : Prop where
  concats : ∀ out ca, node.outputs = [out] → node.axis = some ca →
    concat ca (node.inputs.map val.data) = some (val.data out)
  gathers : ∀ v ∈ node.inputs, val.Gathers (g.producer v)
  splits : ∀ v ∈ node.inputs, ∀ data piece, (g.producer v).inputs = [data, piece] →
    ∀ idx rest, (g.producer piece).inputs = idx :: rest → ∃ sizes,
      split ((g.producer piece).axis.getD 0) sizes (val.ints idx) = some ((g.producer piece).outputs.map val.ints)
  recorded : ∀ v ∈ node.inputs, ∀ data piece, (g.producer v).inputs = [data, piece] →
    Recorded (g.sizes data) (val.data data).shape
  recordedIdx : ∀ v ∈ node.inputs, ∀ data piece, (g.producer v).inputs = [data, piece] →
    ∀ idx rest, (g.producer piece).inputs = idx :: rest → Recorded (g.sizes idx) (val.ints idx).shape

end

variable {l : List Int} {perRow dim0 k : Nat} {shape sizes : List Nat} {axis : Int}

theorem chunkLoop_spec {rows : Int} (hrows : 0 < rows) {room : Nat} {remaining : Int}
    (h : chunkLoop rows room remaining = some l) (hrem : 0 ≤ remaining) :
    (∀ c ∈ l, 0 < c ∧ c ≤ rows) ∧ l.sum = remaining := by
  induction room generalizing remaining l with
  | zero =>
    unfold chunkLoop at h
    split at h
    · cases h
    · cases h
      exact ⟨by simp, by simp; omega⟩
  | succ room ih =>
    unfold chunkLoop at h
    split at h
    · next hpos =>
      obtain ⟨rest, hrest, rfl⟩ := map_eq_some_iff.mp h
      obtain ⟨hall, hsum⟩ := ih hrest (by omega)
      refine ⟨?_, ?_⟩
      · rw [forall_mem_cons]
        exact ⟨by omega, hall⟩
      · rw [sum_cons, hsum]
        omega
    · cases h
      exact ⟨by simp, by simp; omega⟩

theorem computeChunkSizes_spec (hpos : 0 < perRow) (hne : computeChunkSizes dim0 perRow ≠ []) :
    Covers (computeChunkSizes dim0 perRow) dim0 perRow := by
  unfold computeChunkSizes at hne ⊢
  split at hne
  · exact absurd rfl hne
  · next hguard =>
    rw [if_neg hguard]
    push Not at hguard
    obtain ⟨l, hl⟩ : ∃ l, chunkLoop (max 1 (kMaxIndicesPerGather.tdiv perRow)) kMaxChunks dim0 = some l := by
      cases hc : chunkLoop (max 1 (kMaxIndicesPerGather.tdiv perRow)) kMaxChunks dim0 with
      | none => simp [hc] at hne
      | some l => exact ⟨l, rfl⟩
    obtain ⟨hall, hsum⟩ := chunkLoop_spec (by omega) hl (by omega)
    rw [hl, getD_some]
    refine ⟨fun c hc => (hall c hc).1, hsum, ?_⟩
    intro c hc
    have hle := (hall c hc).2
    have hdiv : kMaxIndicesPerGather.tdiv perRow * perRow ≤ kMaxIndicesPerGather :=
      Int.tdiv_mul_le _ (by omega)
    rcases le_total (kMaxIndicesPerGather.tdiv perRow) 1 with hsmall | hlarge
    · rw [max_eq_left hsmall] at hle
      have hone : c * perRow ≤ 1 * perRow := Int.mul_le_mul_of_nonneg_right hle (by omega)
      omega
    · rw [max_eq_right hlarge] at hle
      have hmul := Int.mul_le_mul_of_nonneg_right hle (by omega : (0 : Int) ≤ perRow)
      omega

theorem computeChunkSizes_head {c : Int} (hpos : 0 < perRow) (hlarge : kMaxIndicesPerGather < dim0 * perRow)
    (h : computeChunkSizes dim0 perRow = c :: l) : c ≠ dim0 := by
  have hcov := computeChunkSizes_spec hpos (by rw [h]; simp)
  rw [h] at hcov
  rintro rfl
  have := hcov.within _ mem_cons_self
  omega

section

variable {α : Type} [Inhabited α] {data : NDArray α} {idx : NDArray Int} {g : Graph} {indices : String}

/-- What is known of the indices when they are split. -/
structure Large (shape : List Nat) (sizes : List Int) (dim0 perRow : Nat) : Prop where
  shape_eq : ∃ rest : List Nat, shape = dim0 :: rest ∧ rest.prod = perRow
  sizes_eq : sizes = computeChunkSizes dim0 perRow
  pos : 0 < perRow
  large : kMaxIndicesPerGather < dim0 * perRow

theorem large_of_chunkSizes (hne : chunkSizes g indices ≠ []) (hrec : Recorded (g.sizes indices) shape) :
    ∃ dim0 perRow, Large shape (chunkSizes g indices) dim0 perRow := by
  unfold chunkSizes at hne ⊢
  split at hne
  · next dim0 dims hsizes =>
    obtain ⟨ds, hds, hl⟩ := bind_eq_some_iff.mp hsizes
    have hcast := sizes_of_recorded (hrec ds hds) hl
    cases shape with
    | nil => cases hcast
    | cons n rest =>
      rw [map_cons, List.cons.injEq] at hcast
      obtain ⟨rfl, rfl⟩ := hcast
      split at hne
      · exact absurd rfl hne
      · next hlarge =>
        rw [prod_cons, ← Nat.cast_list_prod] at hlarge
        have hn : 0 < n := by
          apply Nat.pos_of_ne_zero
          rintro rfl
          simp [kMaxIndicesPerGather] at hlarge
        have hprod : 0 < rest.prod := by
          apply Nat.pos_of_ne_zero
          intro hzero
          simp [hzero, kMaxIndicesPerGather] at hlarge
        refine ⟨n, rest.prod, ⟨rest, rfl, rfl⟩, ?_, hprod, by omega⟩
        rw [if_neg (by rw [prod_cons, ← Nat.cast_list_prod]; exact hlarge), prod_cons, ← Nat.cast_list_prod,
          Int.mul_tdiv_cancel_left _ (by omega)]
  · exact absurd rfl hne

theorem concat_slabs_ne {x : NDArray α} {k' len : Nat} (hk' : place x.shape.length axis = some k') (hne : k' ≠ k)
    (hk : k < x.shape.length) (hlen : len ≠ x.shape.getD k 0) :
    concat axis (slabs k x 0 (len :: sizes)) ≠ some x := by
  intro h
  have hrank : (slab k 0 len x).shape.length = x.shape.length := length_set
  rw [slabs, Gathers.concat, hrank, hk', bind_some] at h
  split at h
  · have hshape := congrArg NDArray.shape (Option.some.inj h)
    have hget := congrArg (fun s : List Nat => s.getD k 0) hshape
    have hleft : ∀ m, (((slab k 0 len x).shape).set k' m).getD k 0 = len := by
      intro m
      show ((x.shape.set k len).set k' m).getD k 0 = len
      simp [getD_eq_getElem?_getD, hne, hk]
    exact hlen ((hleft _).symm.trans hget)
  · cases h

theorem sum_toNat (h : ∀ c ∈ l, 0 < c) : ((l.map Int.toNat).sum : Int) = l.sum := by
  induction l with
  | nil => rfl
  | cons c l ih =>
    rw [forall_mem_cons] at h
    rw [map_cons, sum_cons, sum_cons, Nat.cast_add, ih h.2, Int.toNat_of_nonneg (Int.le_of_lt h.1)]

variable {c : Chunked} {opset : Int} {rest : List Nat}

theorem splitLargeGather_eq_some {node : Node} {x : String} (h : splitLargeGather opset g node = some c)
    (hin : node.inputs = [x, indices]) :
    chunkSizes g indices ≠ [] ∧ c = ⟨0, kSizeLimitedGatherSplitMarker, chunkSizes g indices, opset = 0 ∨ 13 ≤ opset,
      node.axis.getD 0, node.axis.getD 0⟩ := by
  unfold splitLargeGather at h
  rw [hin] at h
  split at h
  · next heq _ =>
    cases heq
    split at h
    · next hguard =>
      cases h
      exact ⟨hguard.2.2, rfl⟩
    · cases h
  · cases h

theorem run_eq_concat (hsplit : c.splitAxis = 0) (hcov : Covers c.sizes dim0 perRow)
    (hshape : idx.shape = dim0 :: rest) (hk : place data.shape.length c.gatherAxis = some k)
    (hrange : ∀ i ∈ idx.data, (place (data.shape.getD k 0) i).isSome) :
    c.run data idx = concat c.concatAxis (slabs k (gathered k data idx) 0 (c.sizes.map Int.toNat)) := by
  have hsum : (c.sizes.map Int.toNat).sum = idx.shape.getD 0 0 := by
    have := sum_toNat hcov.pos
    rw [hcov.sum_eq] at this
    rw [hshape]
    exact Int.ofNat_inj.mp this
  have hplace : place idx.shape.length 0 = some 0 := by
    rw [hshape, place_eq_some]
    exact ⟨Nat.succ_pos _, Or.inl rfl⟩
  have hchunks : split c.splitAxis (c.sizes.map Int.toNat) idx = some (slabs 0 idx 0 (c.sizes.map Int.toNat)) := by
    rw [split, hsplit, hplace, bind_some, if_pos hsum]
  have hparts := mapM_gather_slabs hk hrange (place_lt hplace) (by rw [Nat.zero_add, hsum])
  rw [Chunked.run, hchunks]
  show ((slabs 0 idx 0 (c.sizes.map Int.toNat)).mapM (gather c.gatherAxis data)).bind _ = _
  rw [hparts]
  rfl

/-- The axis of the Concat is right unless it counts from the end of a rank that the indices have changed. -/
theorem place_gathered_iff {first : Nat} (hshape : idx.shape = first :: rest)
    (hk : place data.shape.length axis = some k) :
    ∃ k', place (gathered k data idx).shape.length axis = some k' ∧ (k' = k ↔ 0 ≤ axis ∨ idx.shape.length = 1) := by
  obtain ⟨pre, n, post, hs, hpre⟩ := exists_mid (place_lt hk)
  have hrank : (gathered k data idx).shape.length = data.shape.length + rest.length := by
    rw [shape_gathered hs hpre, hs, hshape]
    simp only [length_append, length_cons]
    omega
  obtain ⟨hlt, haxis⟩ := place_eq_some.mp hk
  rw [hrank, hshape, length_cons]
  by_cases hneg : 0 ≤ axis
  · exact ⟨k, place_eq_some.mpr ⟨by omega, by omega⟩, by simp [hneg]⟩
  · exact ⟨k + rest.length, place_eq_some.mpr ⟨by omega, by omega⟩, by omega⟩

theorem splitLargeGather_run {node : Node} {x : String} {y : NDArray α}
    (hfire : splitLargeGather opset g node = some c) (hin : node.inputs = [x, indices])
    (hrec : Recorded (g.sizes indices) idx.shape) (hy : gather (node.axis.getD 0) data idx = some y) :
    (∃ dim0 rest, idx.shape = dim0 :: rest ∧ Covers c.sizes dim0 rest.prod) ∧
      (c.run data idx = some y ↔ 0 ≤ node.axis.getD 0 ∨ idx.shape.length = 1) := by
  obtain ⟨hne, rfl⟩ := splitLargeGather_eq_some hfire hin
  obtain ⟨dim0, perRow, hlarge⟩ := large_of_chunkSizes hne hrec
  obtain ⟨rest, hshape, rfl⟩ := hlarge.shape_eq
  have hsizes := hlarge.sizes_eq
  rw [hsizes] at hne
  have hcov := computeChunkSizes_spec hlarge.pos hne
  rw [← hsizes] at hcov
  refine ⟨⟨dim0, rest, hshape, hcov⟩, ?_⟩
  obtain ⟨k, hk, hrange, rfl⟩ := gather_eq_some.mp hy
  rw [run_eq_concat rfl hcov hshape hk hrange]
  obtain ⟨k', hk', hiff⟩ := place_gathered_iff hshape hk
  rw [← hiff]
  obtain ⟨pre, n, post, hs, hpre⟩ := exists_mid (place_lt hk)
  have hdim : (gathered k data idx).shape.getD k 0 = dim0 := by
    rw [shape_gathered hs hpre, hshape]
    exact getD_mid dim0 hpre
  have hsum : ((chunkSizes g indices).map Int.toNat).sum = dim0 := by
    have := sum_toNat hcov.pos
    rw [hcov.sum_eq] at this
    exact Int.ofNat_inj.mp this
  constructor
  · intro hrun
    by_contra hother
    cases hc : chunkSizes g indices with
    | nil =>
      rw [hsizes] at hc
      exact hne hc
    | cons c l =>
      have hfirst := computeChunkSizes_head hlarge.pos hlarge.large (hsizes.symm.trans hc)
      have hpos := hcov.pos c (by rw [hc]; exact mem_cons_self)
      refine concat_slabs_ne hk' hother ?_ ?_ (by simpa [hc] using hrun)
      · rw [shape_gathered hs hpre, hshape, ← hpre]
        simp
      · rw [hdim]
        omega
  · rintro rfl
    exact concat_slabs hk' (by rw [hsizes]; simpa using hne) (by rw [hdim, hsum])

variable {node new : Node}

/-- What a rewrite has found around a Concat. -/
structure Matched (g : Graph) (node : Node) (data idx piece out : String) (ga ca : Int) : Prop where
  inputs_ne : node.inputs ≠ []
  outputs_eq : node.outputs = [out]
  axis_eq : node.axis = some ca
  split_inputs : ∃ rest, (g.producer piece).inputs = idx :: rest
  gathers : List.Forall₂ (isGatherOf data ga) (node.inputs.map g.producer) (g.producer piece).outputs
  axes : axesAgree g data idx ga ((g.producer piece).axis.getD 0) ca
  first : ∃ v ∈ node.inputs, (g.producer v).inputs = [data, piece]

theorem fuseSplitGatherConcat_eq_some (h : fuseSplitGatherConcat g node = some new) :
    ∃ data idx piece out ga ca, Matched g node data idx piece out ga ca ∧
      new = ⟨"Gather", "", none, some ga, [data, idx], [out]⟩ := by
  unfold fuseSplitGatherConcat at h
  split at h
  · next gather gathers out ca hinputs houtputs haxis =>
    split at h
    · next data piece hgather =>
      dsimp only at h
      split at h
      · next idx rest hsplit =>
        split at h
        · next hguard =>
          cases h
          obtain ⟨-, -, -, -, -, -, hgathers, haxes⟩ := hguard
          obtain ⟨v, hv, rfl⟩ : ∃ v ∈ node.inputs, g.producer v = gather := by
            apply List.mem_map.mp
            rw [hinputs]
            exact mem_cons_self
          rw [← hinputs] at hgathers
          exact ⟨data, idx, piece, out, _, ca, ⟨ne_nil_of_mem hv, houtputs, haxis, ⟨rest, hsplit⟩, hgathers, haxes,
            ⟨v, hv, hgather⟩⟩, rfl⟩
        · cases h
      · cases h
    · cases h
  · cases h

variable {r : Option Int} {rank : Nat} {v : String} {ga : Int} {val : Valuation α}

theorem normalized_of_place {n : Int} (hk : place rank axis = some k) (hr : ∀ m, r = some m → m = rank)
    (hn : n ∈ normalized axis r) : n = k := by
  obtain ⟨hlt, haxis⟩ := place_eq_some.mp hk
  unfold normalized at hn
  split at hn
  · obtain ⟨m, hm, rfl⟩ := map_eq_some_iff.mp hn
    rw [hr m hm]
    omega
  · cases hn
    omega

theorem place_of_normalized (hk : k < rank) (hr : ∀ m, r = some m → m = rank) (hn : (k : Int) ∈ normalized axis r) :
    place rank axis = some k := by
  rw [place_eq_some]
  refine ⟨hk, ?_⟩
  unfold normalized at hn
  split at hn
  · obtain ⟨m, hm, heq⟩ := map_eq_some_iff.mp hn
    have := hr m hm
    omega
  · have := Option.some.inj hn
    omega

theorem rank_of_recorded (h : Recorded (g.sizes v) shape) : ∀ m, g.rank v = some m → m = shape.length := by
  intro m hm
  obtain ⟨ds, hds, rfl⟩ := map_eq_some_iff.mp hm
  rw [(h ds hds).length_eq]

theorem outputs_of_isGatherOf {data piece : String} (h : isGatherOf data ga (g.producer v) piece) :
    (g.producer v).outputs = [v] := by
  obtain ⟨out, hout⟩ := length_eq_one_iff.mp h.2.2.2.1
  have hmem := g.mem_outputs v
  rw [hout] at hmem ⊢
  rw [mem_singleton.mp hmem]

theorem mapM_of_forall₂ {data : String} {vs pieces : List String}
    (h : List.Forall₂ (isGatherOf data ga) (vs.map g.producer) pieces) (hrun : ∀ v ∈ vs, val.Gathers (g.producer v)) :
    (pieces.map val.ints).mapM (gather ga (val.data data)) = some (vs.map val.data) := by
  induction vs generalizing pieces with
  | nil =>
    cases h
    rfl
  | cons v vs ih =>
    rw [map_cons] at h
    cases h with
    | cons hfirst hrest =>
      rw [forall_mem_cons] at hrun
      have hgather := hrun.1 _ _ _ hfirst.2.2.1 (outputs_of_isGatherOf hfirst)
      rw [hfirst.2.2.2.2] at hgather
      rw [map_cons, mapM_cons, hgather, ih hrest hrun.2]
      rfl

theorem range_of_slabs {x : NDArray α} {idx : NDArray Int} {j : Nat} {parts : List (NDArray α)}
    (hk : place x.shape.length axis = some k) (hj : j < idx.shape.length) (hsum : sizes.sum = idx.shape.getD j 0)
    (hparts : (slabs j idx 0 sizes).mapM (gather axis x) = some parts) :
    ∀ i ∈ idx.data, (place (x.shape.getD k 0) i).isSome := by
  intro i hi
  obtain ⟨left, m, right, hs, hleft⟩ := exists_mid hj
  obtain ⟨p, hp, hv⟩ := mem_data.mp hi
  rw [hs] at hp
  obtain ⟨a, n, c, rfl, ha, hn, hc⟩ := exists_of_mem_indices_mid hp
  rw [hs, getD_mid m hleft] at hsum
  have hread : readAt idx (a ++ (n + 0) :: c) = i := hv
  have hlt : n < sizes.sum := by omega
  obtain ⟨y, hy, hmem⟩ := exists_slab_of_mem hs hleft ha hc hlt hread
  obtain ⟨z, -, hz⟩ := Lib.Results.exists_of_mapM_eq_some hparts hy
  obtain ⟨k', hk', hrange, -⟩ := gather_eq_some.mp hz
  rw [hk] at hk'
  cases hk'
  exact hrange i hmem

theorem fuseSplitGatherConcat_run (hfire : fuseSplitGatherConcat g node = some new) (hrun : Run g val node) :
    val.Gathers new := by
  obtain ⟨data, idx, piece, out, ga, ca, hmatch, rfl⟩ := fuseSplitGatherConcat_eq_some hfire
  intro data' idx' out' hin hout
  cases hin
  cases hout
  obtain ⟨v, hv, hinputs⟩ := hmatch.first
  obtain ⟨rest, hsplit⟩ := hmatch.split_inputs
  have hrank := rank_of_recorded (hrun.recorded v hv _ _ hinputs)
  have hrankIdx := rank_of_recorded (hrun.recordedIdx v hv _ _ hinputs _ _ hsplit)
  have hconcat := hrun.concats _ _ hmatch.outputs_eq hmatch.axis_eq
  have hparts := mapM_of_forall₂ hmatch.gathers hrun.gathers
  obtain ⟨sizes, hsizes⟩ := hrun.splits v hv _ _ hinputs _ _ hsplit
  obtain ⟨j, hj, hsizes⟩ := bind_eq_some_iff.mp hsizes
  split at hsizes
  · next hsum =>
    rw [← Option.some.inj hsizes] at hparts
    have hne : sizes ≠ [] := by
      rintro rfl
      have hempty := hmatch.gathers.length_eq
      have hnone : (g.producer piece).outputs = [] := map_eq_nil_iff.mp (Option.some.inj hsizes).symm
      rw [hnone, length_map, length_nil] at hempty
      exact hmatch.inputs_ne (eq_nil_of_length_eq_zero hempty)
    obtain ⟨k, hk⟩ : ∃ k, place (val.data data).shape.length ga = some k := by
      cases sizes with
      | nil => exact absurd rfl hne
      | cons len sizes =>
        obtain ⟨y, -, hy⟩ := Lib.Results.exists_of_mapM_eq_some hparts mem_cons_self
        obtain ⟨k, hk, -⟩ := gather_eq_some.mp hy
        exact ⟨k, hk⟩
    have hrange := range_of_slabs hk (place_lt hj) hsum hparts
    rw [mapM_gather_slabs hk hrange (place_lt hj) (by rw [Nat.zero_add, hsum])] at hparts
    rw [← Option.some.inj hparts] at hconcat
    obtain ⟨pre, n, post, hs, hpre⟩ := exists_mid (place_lt hk)
    obtain ⟨left, m, right, hi, hleft⟩ := exists_mid (place_lt hj)
    have hshape : (gathered k (val.data data) (val.ints idx)).shape = pre ++ (left ++ m :: right ++ post) := by
      rw [shape_gathered hs hpre, hi]
    have hlength : (gathered k (val.data data) (val.ints idx)).shape.length + 1 =
        (val.data data).shape.length + (val.ints idx).shape.length := by
      rw [hshape, hs, hi]
      simp only [length_append, length_cons]
      omega
    have haxis : place (gathered k (val.data data) (val.ints idx)).shape.length ca = some (k + j) := by
      obtain ⟨gaNorm, hga, saNorm, hsa, caNorm, hca, rfl⟩ := hmatch.axes
      rw [normalized_of_place hk hrank hga, normalized_of_place hj hrankIdx hsa, ← Nat.cast_add] at hca
      refine place_of_normalized ?_ ?_ hca
      · have := place_lt hk
        have := place_lt hj
        omega
      · intro r hr
        obtain ⟨r₁, hr₁, hr⟩ := bind_eq_some_iff.mp hr
        obtain ⟨r₂, hr₂, rfl⟩ := map_eq_some_iff.mp hr
        rw [hrank r₁ hr₁, hrankIdx r₂ hr₂]
        omega
    have hdim : sizes.sum = (gathered k (val.data data) (val.ints idx)).shape.getD (k + j) 0 := by
      rw [hsum, hshape, hi, getD_mid m hleft, ← hpre, ← hleft]
      simp
    rw [concat_slabs haxis hne hdim] at hconcat
    rw [← Option.some.inj hconcat]
    exact gather_eq_some.mpr ⟨k, hk, hrange, rfl⟩
  · cases hsizes

/-- Splitting goes wrong when a negative axis meets indices of a higher rank, and fusing never does. -/
theorem split_and_fuse_correct {opset : Int} {g : Graph} {node : Node} {c : Chunked} {x indices : String}
    {data y : NDArray α} {idx : NDArray Int} (hfire : splitLargeGather opset g node = some c)
    (hin : node.inputs = [x, indices]) (hrec : Recorded (g.sizes indices) idx.shape)
    (hy : gather (node.axis.getD 0) data idx = some y) :
    (SplitCorrect c data idx y ↔ 0 ≤ node.axis.getD 0 ∨ idx.shape.length = 1) ∧
      ∀ (g' : Graph) (concat new : Node) (val : Valuation α), fuseSplitGatherConcat g' concat = some new →
        Run g' val concat → val.Gathers new := by
  obtain ⟨hcovers, hiff⟩ := splitLargeGather_run hfire hin hrec hy
  refine ⟨⟨fun h => hiff.mp h.run_eq, fun h => ⟨hcovers, hiff.mpr h⟩⟩, ?_⟩
  intro g' concat new val hfuse hrun
  exact fuseSplitGatherConcat_run hfuse hrun

end

def param (v : String) : Node := ⟨"Param", "", none, none, [], [v]⟩

def twoRows : Graph where
  producer := param
  sizes v := if v = "i" then some [.size 2, .size 40000] else none
  mem_outputs _ := mem_singleton.mpr rfl

def gatherAlong (axis : Int) : Node := ⟨"Gather", "", none, some axis, ["x", "i"], ["y"]⟩

def chunkedAlong (axis : Int) : Chunked := ⟨0, kSizeLimitedGatherSplitMarker, [1, 1], true, axis, axis⟩

def oneElement : NDArray Int := ⟨[1], [7], rfl⟩

def manyIndices : NDArray Int := NDArray.full [2, 40000] 0

theorem twoRows_recorded : Recorded (twoRows.sizes "i") manyIndices.shape := by
  rintro l ⟨⟩
  exact .cons (by simp) (.cons (by simp) .nil)

theorem gather_manyIndices (h : place 1 axis = some 0) :
    gather axis oneElement manyIndices = some (gathered 0 oneElement manyIndices) := by
  refine gather_eq_some.mpr ⟨0, h, ?_, rfl⟩
  intro i hi
  rw [eq_of_mem_replicate hi]
  decide

/-- The axis -1 is the first one of the data and the last one of what is gathered. -/
theorem split_at_last_axis_wrong :
    splitLargeGather 13 twoRows (gatherAlong (-1)) = some (chunkedAlong (-1)) ∧
      Recorded (twoRows.sizes "i") manyIndices.shape ∧
      gather (-1) oneElement manyIndices = some (gathered 0 oneElement manyIndices) ∧
      (chunkedAlong (-1)).run oneElement manyIndices ≠ some (gathered 0 oneElement manyIndices) := by
  have hfire : splitLargeGather 13 twoRows (gatherAlong (-1)) = some (chunkedAlong (-1)) := by decide
  have hy : gather (-1) oneElement manyIndices = _ := gather_manyIndices (by decide)
  refine ⟨hfire, twoRows_recorded, hy, ?_⟩
  intro hrun
  have hiff := (splitLargeGather_run hfire rfl twoRows_recorded hy).2
  have := hiff.mp hrun
  revert this
  decide

def piecesProducer (v : String) : Node :=
  if v = "y" then ⟨"Concat", "", none, some (-1), ["g", "h"], ["y"]⟩
  else if v = "g" then ⟨"Gather", "", none, some (-1), ["x", "i0"], ["g"]⟩
  else if v = "h" then ⟨"Gather", "", none, some (-1), ["x", "i1"], ["h"]⟩
  else if v = "i0" ∨ v = "i1" then ⟨"Split", "", none, none, ["i"], ["i0", "i1"]⟩
  else param v

theorem mem_piecesProducer (v : String) : v ∈ (piecesProducer v).outputs := by
  unfold piecesProducer
  split_ifs <;> simp_all [param]

def pieces : Graph where
  producer := piecesProducer
  sizes v := if v = "x" ∨ v = "i" then some [.unknown] else none
  mem_outputs := mem_piecesProducer

def piecesRun : Valuation Int where
  data v :=
    if v = "y" then ⟨[3], [7, 7, 7], rfl⟩
    else if v = "g" then ⟨[2], [7, 7], rfl⟩
    else oneElement
  ints v := if v = "i" then ⟨[3], [0, -1, 0], rfl⟩ else if v = "i0" then ⟨[2], [0, -1], rfl⟩ else ⟨[1], [0], by decide⟩

theorem pieces_run : Run pieces piecesRun (pieces.producer "y") where
  concats := by
    rintro out ca ⟨⟩ ⟨⟩
    decide
  gathers := by
    intro v hv
    have hv : v = "g" ∨ v = "h" := by simpa [pieces, piecesProducer] using hv
    obtain rfl | rfl := hv
    · rintro data idx out ⟨⟩ ⟨⟩
      decide
    · rintro data idx out ⟨⟩ ⟨⟩
      decide
  splits := by
    intro v hv
    have hv : v = "g" ∨ v = "h" := by simpa [pieces, piecesProducer] using hv
    obtain rfl | rfl := hv
    · rintro data piece ⟨⟩ idx rest ⟨⟩
      exact ⟨[2, 1], by decide⟩
    · rintro data piece ⟨⟩ idx rest ⟨⟩
      exact ⟨[2, 1], by decide⟩
  recorded := by
    intro v hv
    have hv : v = "g" ∨ v = "h" := by simpa [pieces, piecesProducer] using hv
    obtain rfl | rfl := hv
    · rintro data piece ⟨⟩ l ⟨⟩
      exact .cons (by simp) .nil
    · rintro data piece ⟨⟩ l ⟨⟩
      exact .cons (by simp) .nil
  recordedIdx := by
    intro v hv
    have hv : v = "g" ∨ v = "h" := by simpa [pieces, piecesProducer] using hv
    obtain rfl | rfl := hv
    · rintro data piece ⟨⟩ idx rest ⟨⟩ l ⟨⟩
      exact .cons (by simp) .nil
    · rintro data piece ⟨⟩ idx rest ⟨⟩ l ⟨⟩
      exact .cons (by simp) .nil

theorem split_and_fuse_instance :
    (SplitCorrect (chunkedAlong 0) oneElement manyIndices (gathered 0 oneElement manyIndices) ↔
        0 ≤ (gatherAlong 0).axis.getD 0 ∨ manyIndices.shape.length = 1) ∧
      piecesRun.Gathers ⟨"Gather", "", none, some (-1), ["x", "i"], ["y"]⟩ := by
  have hfire : splitLargeGather 13 twoRows (gatherAlong 0) = some (chunkedAlong 0) := by decide
  have hy : gather ((gatherAlong 0).axis.getD 0) oneElement manyIndices = _ := gather_manyIndices (by decide)
  have h := split_and_fuse_correct hfire rfl twoRows_recorded hy
  exact ⟨h.1, h.2 pieces _ _ piecesRun (by decide) pieces_run⟩

end Onnxsim.Passes.SplitGathers
