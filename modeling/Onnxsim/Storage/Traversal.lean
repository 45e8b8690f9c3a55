import Onnxsim.Storage.Pool

namespace Onnxsim.Storage.Archive

open Lib.Bytes Pool

inductive DataLocation where
  | default
  | external
  deriving DecidableEq

/-- `typedData` stands for the typed value fields, which the archive code never touches. -/
structure TensorProto where
  name : ByteString
  dataType : Int
  dims : List Int64
  rawData : Option ByteString
  typedData : ByteString
  dataLocation : DataLocation
  externalData : List (ByteString × ByteString)
  deriving DecidableEq

mutual

/-- The parts of a graph that carry tensors; `other` stands for all its other fields. -/
inductive GraphProto where
  | mk (initializer : List TensorProto) (node : List NodeProto) (other : ByteString)

inductive NodeProto where
  | mk (name : ByteString) (attrs : List AttributeProto) (other : ByteString)

inductive AttributeProto where
  | mk (t : Option TensorProto) (tensors : List TensorProto) (g : Option GraphProto)
      (graphs : List GraphProto) (other : ByteString)

end

structure ModelProto where
  graph : GraphProto
  other : ByteString

def GraphProto.initializer : GraphProto → List TensorProto
  | .mk initializer _ _ => initializer

variable {S : Type} (fn : ByteString → TensorProto → S → TensorProto × S)

def initializerKey (i : Nat) (t : TensorProto) : ByteString :=
  if t.name = [] then ascii "initializer" ++ decimal i else t.name

def tKey (path : ByteString) (t : TensorProto) : ByteString :=
  if t.name = [] then path ++ ascii "/t" else t.name

def tensorsKey (path : ByteString) (i : Nat) (t : TensorProto) : ByteString :=
  if t.name = [] then path ++ ascii "/tensors" ++ decimal i else t.name

def nodePath (i : Nat) (name : ByteString) : ByteString :=
  if name = [] then ascii "node" ++ decimal i else name

def attrPath (path : ByteString) (i : Nat) : ByteString := path ++ ascii "/attr" ++ decimal i

/-- A loop over a repeated tensor field, from index `i` on. -/
def forTensors (key : Nat → TensorProto → ByteString) :
    Nat → List TensorProto → S → List TensorProto × S
  | _, [], s => ([], s)
  | i, t :: ts, s =>
    let r := fn (key i t) t s
    let rest := forTensors key (i + 1) ts r.2
    (r.1 :: rest.1, rest.2)

def forTensor (key : TensorProto → ByteString) : Option TensorProto → S → Option TensorProto × S
  | none, s => (none, s)
  | some t, s =>
    let r := fn (key t) t s
    (some r.1, r.2)

mutual

/-- `ForEachTensor`; `fn` may change the tensor and the caller's state. -/
def forEachTensor : GraphProto → S → GraphProto × S
  | .mk initializer node other, s =>
    let inits := forTensors fn initializerKey 0 initializer s
    let nodes := forNodes 0 node inits.2
    (.mk inits.1 nodes.1 other, nodes.2)

def forNodes : Nat → List NodeProto → S → List NodeProto × S
  | _, [], s => ([], s)
  | ni, .mk name attrs other :: rest, s =>
    let as := forAttrs (nodePath ni name) 0 attrs s
    let nodes := forNodes (ni + 1) rest as.2
    (.mk name as.1 other :: nodes.1, nodes.2)

/-- `ForEachTensorInAttr` on the attributes from `ai` on. -/
def forAttrs (path : ByteString) : Nat → List AttributeProto → S → List AttributeProto × S
  | _, [], s => ([], s)
  | ai, .mk t tensors g graphs other :: rest, s =>
    let t' := forTensor fn (tKey (attrPath path ai)) t s
    let tensors' := forTensors fn (tensorsKey (attrPath path ai)) 0 tensors t'.2
    let g' := forGraph g tensors'.2
    let graphs' := forGraphs graphs g'.2
    let as := forAttrs path (ai + 1) rest graphs'.2
    (.mk t'.1 tensors'.1 g'.1 graphs'.1 other :: as.1, as.2)

def forGraph : Option GraphProto → S → Option GraphProto × S
  | none, s => (none, s)
  | some g, s =>
    let r := forEachTensor g s
    (some r.1, r.2)

def forGraphs : List GraphProto → S → List GraphProto × S
  | [], s => ([], s)
  | g :: gs, s =>
    let r := forEachTensor g s
    let rest := forGraphs gs r.2
    (r.1 :: rest.1, rest.2)

end

def onnxInt8 : Int := 3
def onnxString : Int := 8

def kEmbeddedModelKey : ByteString := ascii "model.onnx"

/-- What `AdoptFromTensorProto` can move out of a tensor. -/
def adoptable (t : TensorProto) : Option ByteString :=
  if t.dataLocation = .external then none
  else if t.dataType = onnxString then none
  else t.rawData

/-- `EmbedModel`'s callback: the tensor's bytes go to the pool under its key, and it is left as a
symbolic reference into the archive. -/
def embedTensor (archivePath name : ByteString) (t : TensorProto) (pool : TensorPool) :
    TensorProto × TensorPool :=
  match adoptable t with
  | none => (t, pool)
  | some bytes =>
    ({ t with
        rawData := none
        dataLocation := .external
        externalData := [(ascii "location", archivePath)] },
      pool.insert name ⟨t.dataType, t.dims, bytes⟩)

/-- `EmbedModel`, with protobuf's serializer as a parameter. -/
def embedModel (serialize : ModelProto → Option ByteString) (m : ModelProto)
    (archivePath : ByteString) (pool : TensorPool) : Except String (ModelProto × TensorPool) :=
  let r := forEachTensor (embedTensor archivePath) m.graph pool
  if (r.2.find? kEmbeddedModelKey).isSome then
    .error ("TensorPool: a tensor is already named '" ++ textOf kEmbeddedModelKey ++
      "', which collides with the reserved key this archive format " ++
      "embeds the graph itself under; rename that tensor before " ++ "embedding")
  else
    match serialize { m with graph := r.1 } with
    | none => .error "TensorPool: EmbedModel: failed to serialize the model"
    | some bytes =>
      .ok ({ m with graph := r.1 },
        r.2.insert kEmbeddedModelKey ⟨onnxInt8, [Int64.ofNat bytes.length], bytes⟩)

def hydrateTensorProto (name : ByteString) (t : TensorProto) (pool : TensorPool) : TensorProto :=
  match pool.find? name with
  | none => t
  | some entry => { t with dataLocation := .default, externalData := [], rawData := some entry.data }

def hydrateGraph (pool : TensorPool) : GraphProto → GraphProto
  | .mk initializer node other =>
    .mk (initializer.map fun init => hydrateTensorProto init.name init pool) node other

/-- `ExtractModel`, which answers `none` where the pool has no embedded model. -/
def extractModel (parse : ByteString → Option ModelProto) (pool : TensorPool) (hydrateAll : Bool) :
    Except String (Option ModelProto) :=
  match pool.find? kEmbeddedModelKey with
  | none => .ok none
  | some blob =>
    match parse blob.data with
    | none =>
      .error ("TensorPool: ExtractModel: embedded '" ++ textOf kEmbeddedModelKey ++
        "' is not a valid serialized ModelProto")
    | some m => .ok (some (if hydrateAll then { m with graph := hydrateGraph pool m.graph } else m))

end Onnxsim.Storage.Archive

namespace Onnxsim.Storage.Traversal

open List Lib.Bytes Pool Archive

abbrev Keyed := ByteString × TensorProto

def keyed (key : Nat → TensorProto → ByteString) : Nat → List TensorProto → List Keyed
  | _, [] => []
  | i, t :: ts => (key i t, t) :: keyed key (i + 1) ts

def keyedOption (key : TensorProto → ByteString) : Option TensorProto → List Keyed
  | none => []
  | some t => [(key t, t)]

mutual

/-- The tensors of a graph with their keys, in the order in which they are visited. -/
def visited : GraphProto → List Keyed
  | .mk initializer node _ => keyed initializerKey 0 initializer ++ visitedNodes 0 node

def visitedNodes : Nat → List NodeProto → List Keyed
  | _, [] => []
  | ni, .mk name attrs _ :: rest =>
    visitedAttrs (nodePath ni name) 0 attrs ++ visitedNodes (ni + 1) rest

def visitedAttrs (path : ByteString) : Nat → List AttributeProto → List Keyed
  | _, [] => []
  | ai, .mk t tensors g graphs _ :: rest =>
    keyedOption (tKey (attrPath path ai)) t ++ (keyed (tensorsKey (attrPath path ai)) 0 tensors ++
      (visitedGraph g ++ (visitedGraphs graphs ++ visitedAttrs path (ai + 1) rest)))

def visitedGraph : Option GraphProto → List Keyed
  | none => []
  | some g => visited g

def visitedGraphs : List GraphProto → List Keyed
  | [] => []
  | g :: gs => visited g ++ visitedGraphs gs

end

def nested : GraphProto → List Keyed
  | .mk _ node _ => visitedNodes 0 node

section

variable (f : TensorProto → TensorProto)

mutual

def mapTensors : GraphProto → GraphProto
  | .mk initializer node other => .mk (initializer.map f) (mapNodes node) other

def mapNodes : List NodeProto → List NodeProto
  | [] => []
  | .mk name attrs other :: rest => .mk name (mapAttrs attrs) other :: mapNodes rest

def mapAttrs : List AttributeProto → List AttributeProto
  | [] => []
  | .mk t tensors g graphs other :: rest =>
    .mk (t.map f) (tensors.map f) (mapGraph g) (mapGraphs graphs) other :: mapAttrs rest

def mapGraph : Option GraphProto → Option GraphProto
  | none => none
  | some g => some (mapTensors g)

def mapGraphs : List GraphProto → List GraphProto
  | [] => []
  | g :: gs => mapTensors g :: mapGraphs gs

end

end

section

variable {S : Type} {fn : ByteString → TensorProto → S → TensorProto × S}
  {f : TensorProto → TensorProto} {step : S → Keyed → S}

theorem forTensors_eq (h : ∀ k t s, fn k t s = (f t, step s (k, t)))
    (key : Nat → TensorProto → ByteString) (i : Nat) (ts : List TensorProto) (s : S) :
    forTensors fn key i ts s = (ts.map f, (keyed key i ts).foldl step s) := by
  induction ts generalizing i s with
  | nil => rfl
  | cons t ts ih => rw [forTensors, h, ih]; rfl

theorem forTensor_eq (h : ∀ k t s, fn k t s = (f t, step s (k, t)))
    (key : TensorProto → ByteString) (t : Option TensorProto) (s : S) :
    forTensor fn key t s = (t.map f, (keyedOption key t).foldl step s) := by
  cases t with
  | none => rfl
  | some t => rw [forTensor, h]; rfl

mutual

/-- A callback that treats every tensor alike and folds over the state maps the graph and folds over the
visited tensors. -/
theorem forEachTensor_eq (h : ∀ k t s, fn k t s = (f t, step s (k, t))) :
    ∀ (g : GraphProto) (s : S),
      forEachTensor fn g s = (mapTensors f g, (visited g).foldl step s)
  | .mk initializer node other, s => by
    rw [forEachTensor, forTensors_eq h, forNodes_eq h, visited, foldl_append, mapTensors]

theorem forNodes_eq (h : ∀ k t s, fn k t s = (f t, step s (k, t))) :
    ∀ (ni : Nat) (ns : List NodeProto) (s : S),
      forNodes fn ni ns s = (mapNodes f ns, (visitedNodes ni ns).foldl step s)
  | _, [], s => by rw [forNodes, mapNodes, visitedNodes]; rfl
  | ni, .mk name attrs other :: rest, s => by
    rw [forNodes, forAttrs_eq h, forNodes_eq h (ni + 1) rest, visitedNodes, foldl_append, mapNodes]

theorem forAttrs_eq (h : ∀ k t s, fn k t s = (f t, step s (k, t))) (path : ByteString) :
    ∀ (ai : Nat) (as : List AttributeProto) (s : S),
      forAttrs fn path ai as s = (mapAttrs f as, (visitedAttrs path ai as).foldl step s)
  | _, [], s => by rw [forAttrs, mapAttrs, visitedAttrs]; rfl
  | ai, .mk t tensors g graphs other :: rest, s => by
    rw [forAttrs, forTensor_eq h, forTensors_eq h, forGraph_eq h g, forGraphs_eq h graphs,
      forAttrs_eq h path (ai + 1) rest, visitedAttrs, mapAttrs]
    simp only [foldl_append]

theorem forGraph_eq (h : ∀ k t s, fn k t s = (f t, step s (k, t))) :
    ∀ (g : Option GraphProto) (s : S),
      forGraph fn g s = (mapGraph f g, (visitedGraph g).foldl step s)
  | none, s => by rw [forGraph, mapGraph, visitedGraph]; rfl
  | some g, s => by rw [forGraph, forEachTensor_eq h g, mapGraph, visitedGraph]

theorem forGraphs_eq (h : ∀ k t s, fn k t s = (f t, step s (k, t))) :
    ∀ (gs : List GraphProto) (s : S),
      forGraphs fn gs s = (mapGraphs f gs, (visitedGraphs gs).foldl step s)
  | [], s => by rw [forGraphs, mapGraphs, visitedGraphs]; rfl
  | g :: gs, s => by
    rw [forGraphs, forEachTensor_eq h g, forGraphs_eq h gs, mapGraphs, visitedGraphs,
      foldl_append]

end

end

def tensorsOf (ks : List Keyed) : List TensorProto := ks.map Prod.snd

@[simp] theorem tensorsOf_append (a b : List Keyed) :
    tensorsOf (a ++ b) = tensorsOf a ++ tensorsOf b := map_append

@[simp] theorem tensorsOf_keyed (key : Nat → TensorProto → ByteString) (i : Nat)
    (ts : List TensorProto) : tensorsOf (keyed key i ts) = ts := by
  induction ts generalizing i with
  | nil => rfl
  | cons t ts ih => exact congrArg (t :: ·) (ih (i + 1))

theorem tensorsOf_keyedOption (f : TensorProto → TensorProto) (k k' : TensorProto → ByteString)
    (t : Option TensorProto) :
    tensorsOf (keyedOption k (t.map f)) = (tensorsOf (keyedOption k' t)).map f := by
  cases t <;> rfl

variable (f : TensorProto → TensorProto)

mutual

theorem tensorsOf_mapTensors : ∀ g : GraphProto,
    tensorsOf (visited (mapTensors f g)) = (tensorsOf (visited g)).map f
  | .mk initializer node other => by
    rw [mapTensors, visited, visited, tensorsOf_append, tensorsOf_append, tensorsOf_keyed,
      tensorsOf_keyed, tensorsOf_mapNodes 0 0 node, map_append]

theorem tensorsOf_mapNodes : ∀ (i j : Nat) (ns : List NodeProto),
    tensorsOf (visitedNodes i (mapNodes f ns)) = (tensorsOf (visitedNodes j ns)).map f
  | _, _, [] => by rw [mapNodes, visitedNodes, visitedNodes]; rfl
  | i, j, .mk name attrs other :: rest => by
    rw [mapNodes, visitedNodes, visitedNodes, tensorsOf_append, tensorsOf_append,
      tensorsOf_mapAttrs _ (nodePath j name) 0 0 attrs, tensorsOf_mapNodes (i + 1) (j + 1) rest,
      map_append]

theorem tensorsOf_mapAttrs (path path' : ByteString) : ∀ (i j : Nat) (as : List AttributeProto),
    tensorsOf (visitedAttrs path i (mapAttrs f as)) = (tensorsOf (visitedAttrs path' j as)).map f
  | _, _, [] => by rw [mapAttrs, visitedAttrs, visitedAttrs]; rfl
  | i, j, .mk t tensors g graphs other :: rest => by
    rw [mapAttrs, visitedAttrs, visitedAttrs]
    simp only [tensorsOf_append, tensorsOf_keyed, map_append]
    rw [tensorsOf_keyedOption f _ (tKey (attrPath path' j)) t, tensorsOf_mapGraph g,
      tensorsOf_mapGraphs graphs, tensorsOf_mapAttrs path path' (i + 1) (j + 1) rest]

theorem tensorsOf_mapGraph : ∀ g : Option GraphProto,
    tensorsOf (visitedGraph (mapGraph f g)) = (tensorsOf (visitedGraph g)).map f
  | none => by rw [mapGraph, visitedGraph]; rfl
  | some g => by rw [mapGraph, visitedGraph, visitedGraph, tensorsOf_mapTensors g]

theorem tensorsOf_mapGraphs : ∀ gs : List GraphProto,
    tensorsOf (visitedGraphs (mapGraphs f gs)) = (tensorsOf (visitedGraphs gs)).map f
  | [] => by rw [mapGraphs, visitedGraphs]; rfl
  | g :: gs => by
    rw [mapGraphs, visitedGraphs, visitedGraphs, tensorsOf_append, tensorsOf_append,
      tensorsOf_mapTensors g, tensorsOf_mapGraphs gs, map_append]

end

end Onnxsim.Storage.Traversal
