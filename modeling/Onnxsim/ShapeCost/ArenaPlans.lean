import Mathlib.Data.List.Sort
import Onnxsim.Lib.AccessTraces
import Onnxsim.Lib.Dicts
import Onnxsim.Overflow.Operators
import Onnxsim.ShapeRanges.Broadcasting

namespace Onnxsim.ShapeCost.ArenaPlans

open Lib.AccessTraces Lib.Dicts Overflow.Arrays ShapeRanges.Dims

/-- A node without subgraphs. -/
structure Node where
  opType : String
  domain : String
  inputs : List String
  outputs : List String

structure Graph where
  nodes : List Node
  initializers : List String
  inputs : List String
  outputs : List String

def Graph.inNames (g : Graph) : List String := g.inputs.filter fun n => n ∉ g.initializers

inductive TensorKind where
  | weight
  | input
  | output
  | activation
deriving DecidableEq

structure Bound where
  lo : Nat
  hi : Option Nat

structure TensorBound where
  kind : TensorKind
  shape : Option Shape
  bytes : Bound

abbrev Bounds := String → Option Shape × Bound

/-- `add` of `bounds`. -/
def addTensor (b : Bounds) (kind : TensorKind) (tensors : Dict String TensorBound) (name : String) :
    Dict String TensorBound :=
  if name = "" ∨ (tensors.get? name).isSome then tensors else tensors.set name ⟨kind, (b name).1, (b name).2⟩

def addOutputs (b : Bounds) (outNames : List String) (tensors : Dict String TensorBound) (node : Node) :
    Dict String TensorBound :=
  node.outputs.foldl (fun d o => addTensor b (if o ∈ outNames then .output else .activation) d o) tensors

def tensorsOf (g : Graph) (b : Bounds) : Dict String TensorBound :=
  let weights := g.initializers.foldl (addTensor b .weight) Dict.empty
  let inputs := g.inNames.foldl (addTensor b .input) weights
  let made := g.nodes.foldl (addOutputs b g.outputs) inputs
  g.outputs.foldl (addTensor b .output) made

def unaryInplace : List String :=
  ["Relu", "Sigmoid", "Tanh", "LeakyRelu", "Elu", "Selu", "Softplus", "Softsign", "HardSigmoid", "Clip", "Neg", "Abs",
    "Sqrt", "Exp", "Log", "Reciprocal", "Identity", "Erf", "Celu", "Round", "Ceil", "Floor", "Sign"]

def viewOps : List String := ["Reshape", "Flatten", "Squeeze", "Unsqueeze"]

def binaryInplace : List String := ["Add", "Sub", "Mul", "Div", "Max", "Min", "And", "Or", "Xor", "Mod"]

def sameStaticShape (a b : Option Shape) : Bool :=
  match a, b with
  | some s, some t => s.all Dim.isExact && t.all Dim.isExact && s.map Dim.lo == t.map Dim.lo
  | _, _ => false

def aliasAllowed (node : Node) (x o : String) (tensors : Dict String TensorBound) : Bool :=
  if node.domain ≠ "" ∧ node.domain ≠ "ai.onnx" then false
  else if node.opType ∈ unaryInplace ∨ node.opType ∈ viewOps then
    x == node.inputs.headD "" && o == node.outputs.headD ""
  else if node.opType ∈ binaryInplace then
    match tensors.get? x, tensors.get? o with
    | some xt, some ot => sameStaticShape xt.shape ot.shape
    | _, _ => false
  else false

/-- The nodes that make and that last read each name. -/
structure Lifetimes where
  first : Dict String Int
  last : Dict String Int

def setDefault (d : Dict String Int) (k : String) (v : Int) : Dict String Int := if (d.get? k).isSome then d else d.set k v

def noteNode (inits : List String) (i : Nat) (t : Lifetimes) (node : Node) : Lifetimes where
  first := node.outputs.foldl (fun d o => if o ≠ "" ∧ o ∉ inits then setDefault d o i else d) t.first
  last := node.inputs.foldl (fun d x => if x ≠ "" then d.set x i else d) t.last

def noteNodes (inits : List String) : Nat → List Node → Lifetimes → Lifetimes
  | _, [], t => t
  | i, node :: rest, t => noteNodes inits (i + 1) rest (noteNode inits i t node)

def lifetimes (g : Graph) : Lifetimes :=
  let noted := noteNodes g.initializers 0 g.nodes ⟨g.inNames.foldl (fun d n => d.set n (-1)) Dict.empty, Dict.empty⟩
  ⟨noted.first, g.outputs.foldl (fun d o => d.set o g.nodes.length) noted.last⟩

/-- Why a plan is refused. -/
inductive Failure where
  | noSlot (name : String)
  | slotTooSmall (name : String) (size : Int) (need : Option Nat)
  | leavesArena (name : String)
  | overlap (a b : String)

abbrev Offsets := Dict String (Int × Int)

def Offsets.slot (offsets : Offsets) (n : String) : Int × Int := (offsets.get? n).getD (0, 0)

def checkSlot (offsets : Offsets) (arenaBytes : Int) (n : String) (t : TensorBound) : Except Failure Unit :=
  match offsets.get? n with
  | none => .error (.noSlot n)
  | some (off, size) =>
    match t.bytes.hi with
    | none => .error (.slotTooSmall n size none)
    | some need =>
      if size < need then .error (.slotTooSmall n size (some need))
      else if off < 0 ∨ arenaBytes < off + size then .error (.leavesArena n)
      else .ok ()

def checkSlots (offsets : Offsets) (arenaBytes : Int) : List (String × TensorBound) → Except Failure Unit
  | [] => .ok ()
  | (n, t) :: rest => (checkSlot offsets arenaBytes n t).bind fun _ => checkSlots offsets arenaBytes rest

def span (g : Graph) (n : String) : Int × Int :=
  (((lifetimes g).first.get? n).getD 0, ((lifetimes g).last.get? n).getD g.nodes.length)

def nodePairs (g : Graph) (tensors : Dict String TensorBound) (names : List String) (i : Nat) (node : Node) :
    List (String × String) :=
  node.inputs.flatMap fun x =>
    if x ≠ "" ∧ (lifetimes g).last.get? x = some (i : Int) ∧ x ∈ names then
      node.outputs.filterMap fun o => if o ≠ "" ∧ o ∈ names ∧ aliasAllowed node x o tensors then some (x, o) else none
    else []

def inplacePairs (g : Graph) (tensors : Dict String TensorBound) (names : List String) : Nat → List Node → List (String × String)
  | _, [] => []
  | i, node :: rest => nodePairs g tensors names i node ++ inplacePairs g tensors names (i + 1) rest

/-- Two tensors that are live together, share an address and are no in-place pair. -/
def clash (g : Graph) (offsets : Offsets) (inplace : List (String × String)) (a b : String) : Bool :=
  let sa := span g a
  let sb := span g b
  let (oa, za) := offsets.slot a
  let (ob, zb) := offsets.slot b
  sa.1 ≤ sb.2 && sb.1 ≤ sa.2 && oa < ob + zb && ob < oa + za && !(oa == ob && ((a, b) ∈ inplace || (b, a) ∈ inplace))

def scanFrom (g : Graph) (offsets : Offsets) (inplace : List (String × String)) (a : String) : List String → Except Failure Unit
  | [] => .ok ()
  | b :: rest =>
    if (span g a).2 < (span g b).1 then .ok ()
    else if clash g offsets inplace a b then .error (.overlap a b)
    else scanFrom g offsets inplace a rest

def scan (g : Graph) (offsets : Offsets) (inplace : List (String × String)) : List String → Except Failure Unit
  | [] => .ok ()
  | a :: rest => (scanFrom g offsets inplace a rest).bind fun _ => scan g offsets inplace rest

def activations (tensors : Dict String TensorBound) : List (String × TensorBound) :=
  tensors.entries.filter fun p => p.2.kind ≠ .weight

def verifyPlan (g : Graph) (offsets : Offsets) (arenaBytes : Int) (tensors : Dict String TensorBound) : Except Failure Unit :=
  let names := (activations tensors).map Prod.fst
  let inplace := inplacePairs g tensors names 0 g.nodes
  let order := names.insertionSort fun a b => (span g a).1 ≤ (span g b).1
  (checkSlots offsets arenaBytes (activations tensors)).bind fun _ => scan g offsets inplace order

/-- A tensor at run time. -/
structure Actual where
  dims : List Nat
  bits : Nat

def Actual.bytes (t : Actual) : Nat := (t.dims.prod * t.bits + 7) / 8

def InRange (tensors : Dict String TensorBound) (actual : String → Actual) : Prop :=
  ∀ n t, (n, t) ∈ activations tensors →
    (∀ s, t.shape = some s → List.Forall₂ (fun d k => d.contains k = true) s (actual n).dims) ∧
      t.bytes.lo ≤ (actual n).bytes ∧ ∀ h ∈ t.bytes.hi, (actual n).bytes ≤ h

/-- How an operator computes the elements of its output. -/
inductive OpClass where
  | positional
  | broadcast
  | other

def Node.opClass (node : Node) : OpClass :=
  if node.domain ≠ "" ∧ node.domain ≠ "ai.onnx" then .other
  else if node.opType ∈ unaryInplace ∨ node.opType ∈ viewOps then .positional
  else if node.opType ∈ binaryInplace then .broadcast
  else .other

/-- The element of an operand that the element `e` of the output is computed from. -/
def OpClass.source (xDims oDims : List Nat) (e : Nat) : OpClass → Option Nat
  | .positional => some e
  | .broadcast => (indices oDims)[e]?.bind fun p => offset xDims (alignIndex xDims p)
  | .other => none

/-- The operands that an operator computes element by element; a limit or a target shape is none of them. -/
def Node.operands (node : Node) : List String :=
  match node.opClass with
  | .positional => node.inputs.take 1
  | .broadcast => node.inputs
  | .other => []

abbrev Trace := List (Access String UInt8)

/-- The accesses of a node: it writes its outputs whole. An operand that is computed element by element is read for
the sake of an element of the output that is not written yet. -/
structure NodeRun (g : Graph) (actual : String → Actual) (node : Node) (tr : Trace) : Prop where
  reads : ∀ x k, .read x k ∈ tr → x ∈ node.inputs ∧ x ≠ "" ∧ x ∉ g.initializers ∧ k < (actual x).bytes
  writes : ∀ o k v, .write o k v ∈ tr → o ∈ node.outputs ∧ o ≠ "" ∧ k < (actual o).bytes
  complete : ∀ o ∈ node.outputs, o ≠ "" → ∀ k < (actual o).bytes, ∃ v, .write o k v ∈ tr
  elementwise : ∃ width, 0 < width ∧ ∀ o ∈ node.outputs, ∀ x ∈ node.operands, ∀ pre k post,
    tr = pre ++ .read x k :: post →
    ∃ e, node.opClass.source (actual x).dims (actual o).dims e = some (k / width) ∧
      ∀ j v, .write o j v ∈ pre → j / width ≠ e

/-- The caller stores the graph inputs. -/
structure CallerRun (g : Graph) (actual : String → Actual) (tr : Trace) : Prop where
  reads : ∀ x k, .read x k ∉ tr
  writes : ∀ x k v, .write x k v ∈ tr → x ∈ g.inNames ∧ k < (actual x).bytes
  complete : ∀ x ∈ g.inNames, ∀ k < (actual x).bytes, ∃ v, .write x k v ∈ tr

/-- Every name is made once, before it is read. -/
structure Graph.Ssa (g : Graph) : Prop where
  named : "" ∉ g.inputs ∧ "" ∉ g.outputs
  once : ∀ (i j : Nat) (n m : Node) (o : String), g.nodes[i]? = some n → g.nodes[j]? = some m → o ∈ n.outputs → o ∈ m.outputs → o ≠ "" → i = j
  fresh : ∀ n ∈ g.nodes, ∀ o ∈ n.outputs, o ≠ "" → o ∉ g.inputs ∧ o ∉ g.initializers
  ordered : ∀ (i : Nat) (n : Node) (x : String), g.nodes[i]? = some n → x ∈ n.inputs → x ≠ "" →
    x ∈ g.initializers ∨ x ∈ g.inputs ∨ ∃ (j : Nat) (m : Node), j < i ∧ g.nodes[j]? = some m ∧ x ∈ m.outputs
  outputs : ∀ o ∈ g.outputs, o ∈ g.initializers ∨ o ∈ g.inputs ∨ ∃ n ∈ g.nodes, o ∈ n.outputs

/-- A run of the graph with its tensors in their slots. -/
structure ArenaRun (g : Graph) (tensors : Dict String TensorBound) where
  actual : String → Actual
  inRange : InRange tensors actual
  caller : Trace
  callerRun : CallerRun g actual caller
  nodes : List Trace
  nodeRuns : List.Forall₂ (NodeRun g actual) g.nodes nodes

def ArenaRun.trace {g : Graph} {tensors : Dict String TensorBound} (r : ArenaRun g tensors) : Trace :=
  r.caller ++ r.nodes.flatten

def Offsets.address (offsets : Offsets) (x : String) (k : Nat) : Int := (offsets.slot x).1 + k

def inArena (offsets : Offsets) (arenaBytes : Int) : Access String UInt8 → Prop
  | .read x k => 0 ≤ offsets.address x k ∧ offsets.address x k < arenaBytes
  | .write x k _ => 0 ≤ offsets.address x k ∧ offsets.address x k < arenaBytes

/-- Two activations may share an address while both are needed only when a node makes the one out of the other,
element by element at the same positions. -/
def SharesInPlace (g : Graph) (offsets : Offsets) (actual : String → Actual) (a b : String) : Prop :=
  ∃ node ∈ g.nodes, ∃ x o, (a = x ∧ b = o ∨ a = o ∧ b = x) ∧ (offsets.slot x).1 = (offsets.slot o).1 ∧ x ∈ node.operands ∧
    o ∈ node.outputs ∧
      ∀ e < (actual o).dims.prod, node.opClass.source (actual x).dims (actual o).dims e = some e

/-- Every read finds what the producer of the tensor wrote, the graph outputs are there at the end, nothing outside of
the arena is touched and storage is shared in place only. -/
structure ArenaRun.Safe {g : Graph} {tensors : Dict String TensorBound} (r : ArenaRun g tensors) (offsets : Offsets)
    (arenaBytes : Int) : Prop where
  arena : ∀ a ∈ r.trace, inArena offsets arenaBytes a
  reads : ∀ pre x k post, r.trace = pre ++ .read x k :: post → Holds offsets.address pre x k
  outputs : ∀ o ∈ g.outputs, o ∉ g.initializers → ∀ k < (r.actual o).bytes, Holds offsets.address r.trace o k
  shared : ∀ a t b u, (a, t) ∈ activations tensors → (b, u) ∈ activations tensors → a ≠ b →
    (span g a).1 ≤ (span g b).2 → (span g b).1 ≤ (span g a).2 →
      ∀ j < (r.actual a).bytes, ∀ k < (r.actual b).bytes, offsets.address a j = offsets.address b k →
        SharesInPlace g offsets r.actual a b

end Onnxsim.ShapeCost.ArenaPlans
