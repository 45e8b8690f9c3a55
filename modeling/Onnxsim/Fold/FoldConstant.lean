import Onnxsim.Lib.Bisection
import Onnxsim.Proto.Models

namespace Onnxsim.Fold.Partition

open Proto.Graphs Proto.Models

structure Config where
  tensorSizeThreshold : Nat
  initializersAsConstants : Bool

/-- Whether the operator registry has a schema for this operator, version and domain whose
determinism is `Deterministic`. -/
abbrev Registry := String → Int → String → Bool

def experimentalOps : List String :=
  ["ATen", "Affine", "ConstantFill", "Crop", "DynamicSlice", "GRUUnit", "GivenTensorFill",
   "ImageScaler", "ParametricSoftplus", "Scale", "ScaledTanh"]

def isOfficialOp (domain op : String) : Bool :=
  (domain = "ai.onnx" || domain = "ai.onnx.ml" || domain = "") && !experimentalOps.contains op

def schemaDomain (domain : String) : String := if domain = "ai.onnx" then "" else domain

def isDeterministic (registry : Registry) (domain op : String) (opsetVersion : Int) : Bool :=
  registry op opsetVersion (schemaDomain domain)

def isQDQ (domain op : String) : Bool :=
  isDefaultDomain domain && (op = "QuantizeLinear" || op = "DequantizeLinear")

def hasSubgraph (n : Node) : Bool := n.attrs.any Attr.isGraph

def transientConstantAttr : String := "onnxsim_transient_constant"

def isTransientConstant (n : Node) : Bool := n.attrs.any fun a => a.name = transientConstantAttr

/-- `domain_to_version`: the last import of a domain wins, and an unknown domain has version 0. -/
def opsetVersionOf (opsets : List (String × Int)) (domain : String) : Int :=
  match opsets.reverse.find? (fun p => schemaDomain p.1 = schemaDomain domain) with
  | some p => p.2
  | none => 0

def sizeOfDtype (dtype : Int) : Except String Nat :=
  if dtype ∈ [9, 3, 2] then .ok 1
  else if dtype ∈ [16, 10, 5, 4] then .ok 2
  else if dtype ∈ [1, 6, 12] then .ok 4
  else if dtype ∈ [11, 7, 13, 14] then .ok 8
  else if dtype ∈ [15, 8] then .ok 16
  else .error "Undefined or unknown datatype"

/-- `size_t` multiplication by a possibly negative or missing `dim_value`. -/
def mulDim (size : Nat) (d : Dim) : Nat := ((size : Int) * d.getD 0 % 2 ^ 64).toNat

def largeTensorOps : List String := ["Tile", "ConstantOfShape", "Expand"]

def largeByInfo (name : String) (threshold : Nat) : List ValueInfo → Except String Bool
  | [] => .ok true
  | vi :: rest =>
    if vi.name = name then do
      let size ← sizeOfDtype ((vi.type.map TensorType.elemType).getD 0)
      if ((vi.type.bind TensorType.shape).getD []).foldl mulDim size ≤ threshold then .ok false
      else largeByInfo name threshold rest
    else largeByInfo name threshold rest

def produceLargeTensor (m : Model) (n : Node) (threshold : Nat) : Except String Bool :=
  if !largeTensorOps.contains n.opType then .ok false
  else largeByInfo (n.output.head?.getD "") threshold m.valueInfo

structure ConstantNodePartition where
  constNodes : List Node := []
  deferredOutputs : List String := []
  impureOutputs : List String := []
  constNames : List String := [""]
  pureNames : List String := [""]

section

variable (registry : Registry) (opsets : List (String × Int))

def foldable (constNames : List String) (n : Node) : Bool :=
  isOfficialOp n.domain n.opType &&
    isDeterministic registry n.domain n.opType (opsetVersionOf opsets n.domain) &&
    !isQDQ n.domain n.opType && !hasSubgraph n && n.input.all constNames.contains

/-- One round of the loop of `GetConstantNodes` and of its Graph counterpart, which differ in how they
decide that a node's result is large. -/
def partitionStep (large : Node → Except String Bool) (p : ConstantNodePartition) (n : Node) :
    Except String ConstantNodePartition :=
  if isConstantOp n && !isTransientConstant n then
    .ok { p with constNames := p.constNames ++ n.output }
  else if !foldable registry opsets p.constNames n then .ok p
  else do
    let isLarge ← large n
    if !isLarge then
      if n.input.all p.pureNames.contains then
        .ok { p with
          constNames := p.constNames ++ n.output
          pureNames := p.pureNames ++ n.output
          constNodes := p.constNodes ++ [n] }
      else
        .ok { p with
          constNames := p.constNames ++ n.output
          impureOutputs := p.impureOutputs ++ n.output
          constNodes := p.constNodes ++ [n] }
    else if n.opType = "ConstantOfShape" || n.opType = "Expand" then
      .ok { p with
        constNames := p.constNames ++ n.output
        deferredOutputs := p.deferredOutputs ++ n.output }
    else .ok p

end

variable (cfg : Config) (registry : Registry)

def initialPartition (initializerNames : List String) : ConstantNodePartition :=
  if cfg.initializersAsConstants then
    { constNames := "" :: initializerNames, pureNames := "" :: initializerNames }
  else {}

def getConstantNodes (m : Model) : Except String ConstantNodePartition :=
  m.node.foldlM
    (partitionStep registry m.opsetImport fun n => produceLargeTensor m n cfg.tensorSizeThreshold)
    (initialPartition cfg m.initializerNames)

end Onnxsim.Fold.Partition

namespace Onnxsim.Fold.RunOps

open Proto.Graphs Proto.Models Fold.Partition

/-- Which `NodeProto` object a pointer points at: an element of `const_nodes`, of the model's own
node list, or of `new_constant_nodes`. -/
inductive Key where
  | const (k : Nat)
  | model (i : Nat)
  | fresh (k : Nat)
  deriving DecidableEq

abbrev Ref := Key × Node

/-- A map from output names to producing nodes; the first entry of a name counts. -/
abbrev Producers := List (String × Ref)

structure Scope where
  internalOutputs : List String
  deferred : Producers
  constants : Producers
  initializer : List (String × Tensor)

structure SubModel where
  included : List Key := []
  seenInputs : List String := []
  initializer : List (String × Tensor) := []
  feeds : List (String × Tensor) := []
  node : List Node := []

def findInitializerByName (initializer : List (String × Tensor)) (name : String) :
    Except String Tensor :=
  match initializer.lookup name with
  | some t => .ok t
  | none => .error ("no initializer " ++ name)

def addInput (sc : Scope) (st : SubModel) (input : String) : Except String SubModel :=
  if st.seenInputs.contains input then .ok st
  else do
    let t ← findInitializerByName sc.initializer input
    if t.dims = [0] then
      .ok { st with
        seenInputs := input :: st.seenInputs
        initializer := st.initializer ++ [(input, t)] }
    else
      .ok { st with
        seenInputs := input :: st.seenInputs
        feeds := st.feeds ++ [(input, t)] }

def includeInput (visit : Ref → SubModel → Except String SubModel) (sc : Scope) (st : SubModel)
    (input : String) : Except String SubModel :=
  if input = "" then .ok st
  else if sc.internalOutputs.contains input then .ok st
  else
    match sc.deferred.lookup input with
    | some r => visit r st
    | none =>
      match sc.constants.lookup input with
      | some r => visit r st
      | none => addInput sc st input

/-- The `include_node` lambda of `RunOps`. Every nested call has put a new key into `included`, so
the fuel `RunOps` starts with never runs out. -/
def includeNode (sc : Scope) : Nat → Ref → SubModel → Except String SubModel
  | 0, _, _ => .error "include_node"
  | fuel + 1, r, st =>
    if st.included.contains r.1 then .ok st
    else do
      let st ← r.2.input.foldlM (includeInput (includeNode sc fuel) sc)
        { st with included := r.1 :: st.included }
      .ok { st with node := st.node ++ [r.2] }

def tensorInfo (name : String) (t : Tensor) : ValueInfo :=
  ⟨name, some ⟨t.elemType, some (t.dims.map some)⟩⟩

def findValueInfoProtoByName (m : Model) (initializer : List (String × Tensor)) (name : String) :
    Except String ValueInfo :=
  match m.valueInfo.find? (fun vi => vi.name = name) with
  | some vi => .ok vi
  | none =>
    match initializer.lookup name with
    | some t => .ok (tensorInfo name t)
    | none => .error ("no value info " ++ name)

/-- What runs a sub-model: it gets the feeds in input order and returns the outputs in order, or
throws. -/
abbrev Executor := Model → List Tensor → Except String (List Tensor)

def nameOutputs : List String → List Tensor → List (String × Tensor)
  | _, [] => []
  | [], t :: ts => ("", t) :: nameOutputs [] ts
  | x :: xs, t :: ts => (x, t) :: nameOutputs xs ts

def outputNames (ops : List Ref) : List String := ops.flatMap fun r => r.2.output

variable (m : Model) (deferred : Producers)

def scopeOf (constants : Producers) (initializer : List (String × Tensor)) (ops : List Ref) : Scope :=
  ⟨outputNames ops, deferred, constants, initializer⟩

def includeFuel (sc : Scope) : Nat := sc.deferred.length + sc.constants.length + 2

def buildSubModel (sc : Scope) (ops : List Ref) : Except String SubModel :=
  ops.foldlM (fun st r => includeNode sc (includeFuel sc) r st) {}

def opModel (st : SubModel) (input : List ValueInfo) (ops : List Ref) : Model :=
  { irVersion := m.irVersion
    opsetImport := m.opsetImport
    node := st.node
    input := input
    initializer := st.initializer
    output := outputNames ops
    valueInfo := [] }

def runOps (executor : Executor) (constants : Producers) (initializer : List (String × Tensor))
    (ops : List Ref) : Except String (List (String × Tensor)) := do
  let st ← buildSubModel (scopeOf deferred constants initializer ops) ops
  let input ← st.feeds.mapM fun f => findValueInfoProtoByName m initializer f.1
  let outputs ← executor (opModel m st input ops) (st.feeds.map Prod.snd)
  .ok (nameOutputs (outputNames ops) outputs)

end Onnxsim.Fold.RunOps

namespace Onnxsim.Fold.FoldConstant

open Lib.Bisection Proto.Graphs Proto.Models Fold.Partition
open RunOps

def makeConstantNode (name : String) (t : Tensor) : Node :=
  .mk "" "" "Constant" [] [name] [.tensor "value" t]

/-- What folding has changed so far: the model's initializers, the Constant nodes it made, where
Constant nodes are found, and the folded names. -/
structure FoldState where
  initializer : List (String × Tensor)
  newConstantNodes : List Node := []
  constants : Producers
  foldedOutputs : List String := []

def addOutput (impureOutputs : List String) (st : FoldState) (o : String × Tensor) : FoldState :=
  if !impureOutputs.contains o.1 then { st with initializer := st.initializer ++ [o] }
  else
    { st with
      newConstantNodes := st.newConstantNodes ++ [makeConstantNode o.1 o.2]
      constants := (o.1, .fresh st.newConstantNodes.length, makeConstantNode o.1 o.2) ::
        st.constants }

section

variable (executor : Executor) (m : Model) (deferred : Producers) (impureOutputs : List String)

def runOpsAndAddInitializers (ops : List Ref) (st : FoldState) : Except String FoldState := do
  let outputs ← runOps m deferred executor st.constants st.initializer ops
  .ok (outputs.foldl (addOutput impureOutputs) st)

/-- The `try` block of `FoldGroup`. -/
def runGroup (ops : List Ref) (st : FoldState) : Except String FoldState := do
  let st ← runOpsAndAddInitializers executor m deferred impureOutputs ops st
  .ok { st with foldedOutputs := st.foldedOutputs ++ outputNames ops }

/-- `FoldGroup` on a slice of `const_nodes`: halves are never longer than the slice, so its length is
fuel enough. -/
def foldGroup (ops : List Ref) (st : FoldState) : FoldState :=
  bisect (runGroup executor m deferred impureOutputs) ops.length ops st

end

/-- `EstimateOutputBytes` of one output; an output of unknown size counts nothing. -/
def estimateOne (valueInfo : List ValueInfo) (output : String) : Nat :=
  match valueInfo.reverse.find? (fun vi => vi.name = output) with
  | some ⟨_, some ⟨elemType, some dims⟩⟩ =>
    if elemType = 0 then 0
    else
      match sizeOfDtype elemType with
      | .ok size => if dims.all Option.isSome then dims.foldl mulDim size else 0
      | .error _ => 0
  | _ => 0

def estimateOutputBytes (valueInfo : List ValueInfo) (n : Node) : Nat :=
  n.output.foldl (fun total o => (total + estimateOne valueInfo o) % 2 ^ 64) 0

def kBatchByteBudget : Nat := 256 * 2 ^ 20
def kBatchMaxNodes : Nat := 1024

def consumesDeferred (deferredOutputs : List String) (n : Node) : Bool :=
  n.input.any deferredOutputs.contains

/-- The inner `while` of the batch loop: how many nodes are left to take, and the bytes so far. -/
def takeBatch (estimate : Node → Nat) (deferredOutputs : List String) (first : Bool) :
    Nat → Nat → List Ref → List Ref × List Ref
  | _, _, [] => ([], [])
  | 0, _, rest => ([], rest)
  | room + 1, bytes, r :: rest =>
    if consumesDeferred deferredOutputs r.2 then ([], r :: rest)
    else if !first && kBatchByteBudget < (bytes + estimate r.2) % 2 ^ 64 then ([], r :: rest)
    else
      let taken := takeBatch estimate deferredOutputs false room ((bytes + estimate r.2) % 2 ^ 64) rest
      (r :: taken.1, taken.2)

def nextBatch (estimate : Node → Nat) (deferredOutputs : List String) :
    List Ref → List Ref × List Ref
  | [] => ([], [])
  | r :: rest =>
    if consumesDeferred deferredOutputs r.2 then ([r], rest)
    else takeBatch estimate deferredOutputs true kBatchMaxNodes 0 (r :: rest)

/-- The batch loop. How it cuts `const_nodes` does not depend on what has been folded. -/
def foldBatches (executor : Executor) (m : Model) (deferred : Producers)
    (p : ConstantNodePartition) (refs : List Ref) (st : FoldState) : FoldState :=
  (batches (nextBatch (estimateOutputBytes m.valueInfo) p.deferredOutputs) refs.length refs).foldl
    (fun st batch => foldGroup executor m deferred p.impureOutputs batch st) st

def keyed (key : Nat → Key) (ns : List Node) : List Ref := ns.mapIdx fun i n => (key i, n)

def producersOf (refs : List Ref) (keep : Node → String → Bool) : Producers :=
  refs.flatMap fun r => (r.2.output.filter (keep r.2)).map fun o => (o, r)

def deferredProducers (m : Model) (p : ConstantNodePartition) : Producers :=
  producersOf (keyed .model m.node) fun _ o => p.deferredOutputs.contains o

def constantNodeProducers (m : Model) : Producers :=
  producersOf (keyed .model m.node) fun n _ => isConstantOp n

def isFolded (foldedOutputs : List String) (n : Node) : Bool :=
  match n.output with
  | [] => false
  | o :: _ => foldedOutputs.contains o

def rebuildNodeList (st : FoldState) (nodes : List Node) : List Node :=
  let kept := nodes.filter fun n => !isFolded st.foldedOutputs n
  st.newConstantNodes ++ kept.filter isConstantOp ++ kept.filter fun n => !isConstantOp n

def usedNames (m : Model) : List String :=
  usedNodes m.node ++ m.output ++ m.inputNames

def eliminateUnusedInitializer (m : Model) : Model :=
  { m with initializer := m.initializer.filter fun p => (usedNames m).contains p.1 }

def foldAll (executor : Executor) (m : Model) (p : ConstantNodePartition) : FoldState :=
  foldBatches executor m (deferredProducers m p) p (keyed .const p.constNodes)
    { initializer := m.initializer, constants := constantNodeProducers m }

def foldConstant (cfg : Config) (registry : Registry) (executor : Executor) (m : Model) :
    Except String Model := do
  let p ← getConstantNodes cfg registry m
  let st := foldAll executor m p
  .ok (eliminateUnusedInitializer
    { m with initializer := st.initializer, node := rebuildNodeList st m.node })

end Onnxsim.Fold.FoldConstant
