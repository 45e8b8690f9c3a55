import Mathlib.Data.String.Basic
import Onnxsim.Lib.BestFit
import Onnxsim.Lib.Classes
import Onnxsim.Lib.OrderedMaps
import Onnxsim.Proto.Models

namespace Onnxsim.Memory.Views

open Proto.Graphs

mutual

/-- A node as the metrics see it. `attentionScoreBytes` is `none` when the size is symbolic. -/
inductive NodeView where
  | mk (opType : String) (inputs outputs : List String) (subgraphs : List GraphView)
      (attentionScoreBytes : Option Int)

/-- A graph as the metrics see it. `bytes` is what `TensorBytes` finds in its shapes and element sizes,
where that is a known number. -/
inductive GraphView where
  | mk (nodes : List NodeView) (inputs outputs initializers : List String)
      (bytes : String → Option Int)

end

namespace NodeView

def opType : NodeView → String
  | .mk t _ _ _ _ => t

def inputs : NodeView → List String
  | .mk _ i _ _ _ => i

def outputs : NodeView → List String
  | .mk _ _ o _ _ => o

def subgraphs : NodeView → List GraphView
  | .mk _ _ _ s _ => s

def attentionScoreBytes : NodeView → Option Int
  | .mk _ _ _ _ a => a

end NodeView

namespace GraphView

def nodes : GraphView → List NodeView
  | .mk n _ _ _ _ => n

def inputs : GraphView → List String
  | .mk _ i _ _ _ => i

def outputs : GraphView → List String
  | .mk _ _ o _ _ => o

def initializers : GraphView → List String
  | .mk _ _ _ i _ => i

def bytes : GraphView → String → Option Int
  | .mk _ _ _ _ b => b

end GraphView

mutual

def GraphView.free : GraphView → List String
  | .mk nodes inputs outputs initializers _ =>
    (usesAll nodes ++ outputs).filter fun x =>
      x ∉ inputs ++ initializers ++ outputsAll nodes

def usesAll : List NodeView → List String
  | [] => []
  | n :: ns => NodeView.uses n ++ usesAll ns

/-- What a node needs while it runs: its own inputs, and the outer names that nodes inside its
subgraphs read. -/
def NodeView.uses : NodeView → List String
  | .mk _ inputs _ subgraphs _ => nonempty inputs ++ freeAll subgraphs

def freeAll : List GraphView → List String
  | [] => []
  | g :: gs => GraphView.free g ++ freeAll gs

def outputsAll : List NodeView → List String
  | [] => []
  | n :: ns => NodeView.named n ++ outputsAll ns

def NodeView.named : NodeView → List String
  | .mk _ _ outputs _ _ => nonempty outputs

end

def NodeView.captures (n : NodeView) : List String := freeAll n.subgraphs

theorem NodeView.mem_uses {n : NodeView} {x : String} :
    x ∈ n.uses ↔ x ∈ nonempty n.inputs ∨ x ∈ n.captures := by
  cases n with
  | mk opType inputs outputs subgraphs score => rw [NodeView.uses, List.mem_append]; rfl

/-- A view and the views nested in it, at any depth. -/
inductive Nested : GraphView → GraphView → Prop
  | self (g : GraphView) : Nested g g
  | inside {g v w : GraphView} {n : NodeView} (hn : n ∈ g.nodes) (hv : v ∈ n.subgraphs)
      (h : Nested v w) : Nested g w

end Onnxsim.Memory.Views

namespace Onnxsim.Memory.Planning

open Lib.BestFit
open Lib.Classes
open Lib.OrderedMaps
open Proto.Graphs
open Views

/-- `start` is the node after which the tensor is available, -1 before the first node; `last` is the last
node that still needs it. -/
structure Interval where
  name : String
  size : Int
  start : Int
  last : Int

def Interval.Disjoint (a b : Interval) : Prop := a.last < b.start ∨ b.last < a.start

instance : DecidableRel Interval.Disjoint := fun _ _ => inferInstanceAs (Decidable (_ ∨ _))

def isInPlaceSafeOp (opType : String) : Bool :=
  opType ∈ ["Relu", "Sigmoid", "Tanh", "LeakyRelu", "Elu", "Selu",
    "Softplus", "Softsign", "HardSigmoid", "Clip", "Neg", "Abs",
    "Sqrt", "Exp", "Log", "Reciprocal", "Identity", "Erf",
    "Celu", "Round", "Ceil", "Floor", "Sign"]

def isViewOp (opType : String) : Bool :=
  opType ∈ ["Reshape", "Flatten", "Squeeze", "Unsqueeze"]

def isInPlaceSafeBinaryOp (opType : String) : Bool :=
  opType ∈ ["Add", "Sub", "Mul", "Div", "Max", "Min", "And", "Or", "Xor", "Mod"]

section

variable (g : GraphView)

def nodeUses : List (String × Int) :=
  g.nodes.zipIdx.flatMap fun p => (nonempty p.1.inputs).map fun x => (x, (p.2 : Int))

def nodeOutputs : List (String × Int) :=
  g.nodes.zipIdx.flatMap fun p => (nonempty p.1.outputs).map fun x => (x, (p.2 : Int))

/-- The last node that lists a tensor among its inputs. A graph output is used past the last node. -/
def lastUse : SortedMap String Int :=
  .ofList (nodeUses g ++ g.outputs.map fun x => (x, (g.nodes.length : Int)))

def producedAt : SortedMap String Int :=
  .ofList ((g.inputs.map (fun x => (x, (-1 : Int))) ++ nodeOutputs g).filter fun p =>
    p.1 ∉ g.initializers)

def consumerCount (x : String) : Nat := (g.nodes.flatMap fun n => nonempty n.inputs).count x

def lastOf (x : String) : Int := ((lastUse g).find? x).getD g.nodes.length

def isAliasEligible (cand out0 : String) : Bool :=
  cand ≠ "" ∧ out0 ≠ "" ∧
  cand ∉ g.initializers ∧ cand ∉ g.inputs ∧ cand ∉ g.outputs ∧
  consumerCount g cand = 1 ∧
  (g.bytes cand).isSome ∧ g.bytes cand = g.bytes out0

def unaryPair (n : NodeView) : Option (String × String) :=
  if isInPlaceSafeOp n.opType || isViewOp n.opType then
    match n.inputs, n.outputs with
    | in0 :: _, [out0] => if isAliasEligible g in0 out0 then some (in0, out0) else none
    | _, _ => none
  else none

/-- At most one operand is given up for the output, the first if it will do. -/
def binaryPair (n : NodeView) : Option (String × String) :=
  if isInPlaceSafeBinaryOp n.opType then
    match n.inputs, n.outputs with
    | [in0, in1], [out0] =>
      if isAliasEligible g in0 out0 then some (in0, out0)
      else if isAliasEligible g in1 out0 then some (in1, out0)
      else none
    | _, _ => none
  else none

def aliasPairs : List (String × String) :=
  g.nodes.filterMap (unaryPair g) ++ g.nodes.filterMap (binaryPair g)

def aliases : UnionFind String := .unionAll (aliasPairs g)

structure GroupSpan where
  size : Int
  start : Int
  last : Int

def GroupSpan.join : Option GroupSpan → GroupSpan → GroupSpan
  | none, s => s
  | some s, t => ⟨max s.size t.size, min s.start t.start, max s.last t.last⟩

def addTensor (groups : SortedMap String GroupSpan) (p : String × Int) : SortedMap String GroupSpan :=
  match g.bytes p.1 with
  | none => groups
  | some bytes =>
    let root := (aliases g).find p.1
    groups.insert root (GroupSpan.join (groups.find? root) ⟨bytes, p.2, lastOf g p.1⟩)

def groups : SortedMap String GroupSpan := (producedAt g).entries.foldl (addTensor g) .empty

def groupIntervals : List Interval :=
  (groups g).entries.map fun p => ⟨p.1, p.2.size, p.2.start, p.2.last⟩

/-- The name a control-flow node's plans and reservation go under. -/
def keyBase (n : NodeView) (i : Nat) : String :=
  (nonempty n.outputs).headD ("#node" ++ toString i)

/-- `arenas` lists, node by node, the arena sizes of the subgraphs. -/
def reservedIntervals (arenas : List (List Int)) : List Interval :=
  (g.nodes.zip arenas).zipIdx.filterMap fun p =>
    if p.1.2.sum ≤ 0 then none
    else some ⟨keyBase p.1.1 p.2 ++ "#reserved", p.1.2.sum, p.2, p.2⟩

def attentionIntervals (attentionTiled : Bool) : List Interval :=
  if attentionTiled then [] else
    g.nodes.zipIdx.filterMap fun p =>
      match p.1.attentionScoreBytes with
      | none => none
      | some score =>
        if score ≤ 0 then none else some ⟨"#attn_workspace" ++ toString p.2, score, p.2, p.2⟩

def intervals (attentionTiled : Bool) (arenas : List (List Int)) : List Interval :=
  groupIntervals g ++ reservedIntervals g arenas ++ attentionIntervals g attentionTiled

end

def placedBefore (a b : Interval) : Prop := b.size < a.size ∨ a.size = b.size ∧ a.name ≤ b.name

instance : DecidableRel placedBefore := fun _ _ => inferInstanceAs (Decidable (_ ∨ _))

abbrev Placed := Interval × Int

def Placed.range (p : Placed) : Range := (p.2, p.2 + p.1.size)

def blocking (placed : List Placed) (iv : Interval) : List Range :=
  (placed.filter fun p => ¬ iv.Disjoint p.1).map Placed.range

def placeOne (placed : List Placed) (iv : Interval) : List Placed :=
  placed ++ [(iv, bestFit iv.size (blocking placed iv))]

def place (ivs : List Interval) : List Placed :=
  (ivs.insertionSort placedBefore).foldl placeOne []

def groupOffsets (placed : List Placed) : SortedMap String (Int × Int) :=
  .ofList (placed.map fun p => (p.1.name, (p.2, p.1.size)))

def offsets (g : GraphView) (placed : List Placed) : SortedMap String (Int × Int) :=
  .ofList ((producedAt g).entries.filterMap fun p =>
    ((groupOffsets placed).find? ((aliases g).find p.1)).map fun slot => (p.1, slot))

inductive MemoryPlan where
  | mk (offsets : SortedMap String (Int × Int)) (arenaBytes naiveBytes : Int)
      (unplanned : List String) (subgraphReservedBytes : Int)
      (subgraphPlans : List (String × MemoryPlan))

namespace MemoryPlan

def offsets : MemoryPlan → SortedMap String (Int × Int)
  | .mk o _ _ _ _ _ => o

def arenaBytes : MemoryPlan → Int
  | .mk _ a _ _ _ _ => a

def naiveBytes : MemoryPlan → Int
  | .mk _ _ n _ _ _ => n

end MemoryPlan

def planAround (attentionTiled : Bool) (g : GraphView) (plans : List (List MemoryPlan)) : MemoryPlan :=
  let arenas := plans.map fun ps => ps.map MemoryPlan.arenaBytes
  let placed := place (intervals g attentionTiled arenas)
  .mk (offsets g placed)
    (placed.foldl (fun arena p => max arena (p.2 + p.1.size)) 0)
    ((producedAt g).keys.filterMap g.bytes).sum
    ((producedAt g).keys.filter fun x => (g.bytes x).isNone)
    ((reservedIntervals g arenas).map Interval.size).sum
    ((g.nodes.zip plans).zipIdx.foldl (fun m p =>
      p.1.2.zipIdx.foldl (fun m q => insertList (keyBase p.1.1 p.2 ++ "#" ++ toString q.2) q.1 m) m) [])

mutual

def computeActivationMemoryPlan (attentionTiled : Bool) : GraphView → MemoryPlan
  | .mk nodes inputs outputs initializers bytes =>
    planAround attentionTiled (.mk nodes inputs outputs initializers bytes)
      (nodePlans attentionTiled nodes)

def nodePlans (attentionTiled : Bool) : List NodeView → List (List MemoryPlan)
  | [] => []
  | .mk _ _ _ subgraphs _ :: ns => viewPlans attentionTiled subgraphs :: nodePlans attentionTiled ns

def viewPlans (attentionTiled : Bool) : List GraphView → List MemoryPlan
  | [] => []
  | v :: vs => computeActivationMemoryPlan attentionTiled v :: viewPlans attentionTiled vs

end

end Onnxsim.Memory.Planning
