import Mathlib.Algebra.BigOperators.Group.Finset.Basic
import Onnxsim.Lib.Classes

namespace Onnxsim.Traffic.Groups

open Lib.Classes

section

/-- A node with its outputs, of which every operator has one, and the names that its nested bodies read. -/
structure Node where
  opType : String
  domain : String := ""
  input : List String
  first : String
  others : List String := []
  captured : List String := []

def Node.output (n : Node) : List String := n.first :: n.others

structure Graph where
  nodes : List Node
  outputs : List String

def kernelElementwiseOps : List String :=
  ["Abs", "Add", "And", "Cast", "Ceil", "Clip", "Cos", "Div", "Elu", "Equal", "Erf", "Exp", "Floor", "Gelu", "Greater",
    "GreaterOrEqual", "HardSigmoid", "HardSwish", "LeakyRelu", "Less", "LessOrEqual", "Log", "Max", "Min", "Mul", "Neg",
    "Not", "Or", "Pow", "Reciprocal", "Relu", "Round", "Sigmoid", "Sin", "Sqrt", "Sub", "Tanh", "Where"]

def kernelEpilogueProducers : List String := ["Conv", "Gemm", "MatMul"]

def kernelViewJoinOps : List String := ["Concat", "Slice", "Transpose"]

def kernelReduceOps : List String := ["ReduceMax", "ReduceMean", "ReduceMin", "ReduceProd", "ReduceSum"]

def isStdDomain (n : Node) : Bool := n.domain = "" || n.domain = "ai.onnx"

namespace Graph

variable (g : Graph)

def isOp (ops : List String) (i : Nat) : Bool := (g.nodes[i]?).any fun n => isStdDomain n && decide (n.opType ∈ ops)

def isKernelElementwise : Nat → Bool := g.isOp kernelElementwiseOps

def isKernelEpilogueProducer : Nat → Bool := g.isOp kernelEpilogueProducers

def isViewJoiner : Nat → Bool := g.isOp kernelViewJoinOps

def isMatMul : Nat → Bool := g.isOp ["MatMul"]

def indices : List Nat := List.range g.nodes.length

def input (i : Nat) : List String := ((g.nodes[i]?).map Node.input).getD []

def captured (i : Nat) : List String := ((g.nodes[i]?).map Node.captured).getD []

def output (i : Nat) : List String := ((g.nodes[i]?).map Node.output).getD []

def firstOutput (i : Nat) : String := ((g.nodes[i]?).map Node.first).getD ""

/-- The nodes that read a name, once for every input that does. -/
def consumers (name : String) : List Nat :=
  if name = "" then [] else g.indices.flatMap fun i => ((g.input i).filter (· = name)).map fun _ => i

def producer (name : String) : Option Nat :=
  if name = "" then none else g.indices.reverse.find? fun i => decide (name ∈ g.output i)

end Graph

end

section

structure State where
  classes : UnionFind Nat
  /-- How many of the MatMul, Gemm and Conv nodes are in the class of each root. -/
  matmuls : Nat → Nat
  merged : List Nat

namespace State

variable (s : State) (members : List Nat)

def find (i : Nat) : Nat := s.classes.find i

def roots : Finset Nat := members.toFinset.image s.find

def total : Nat := ∑ r ∈ s.roots members, s.matmuls r

/-- Every root of the members gets the root of the first one as its parent. -/
def unite : State :=
  let root := s.find (members.headD 0)
  { s with
    classes := ⟨fun x => if s.find x ∈ s.roots members then root else s.find x⟩
    matmuls := Function.update s.matmuls root (s.total members)
    merged := s.merged ++ members }

/-- One group for all members, unless it would hold two matmuls. -/
def join : State := if 1 < s.total members then s else s.unite members

end State

variable (g : Graph)

/-- Elementwise chains: an input that only this node reads, and that an elementwise node produces. -/
def chainInput (i : Nat) (s : State) (name : String) : State :=
  match g.producer name with
  | none => s
  | some p =>
    if p = i ∨ ¬ g.isKernelElementwise p then s
    else if (g.consumers name).length = 1 ∧ name ∉ g.outputs then
      { s.join [p, i] with merged := s.merged ++ [p, i] }
    else s

def chainNode (s : State) (i : Nat) : State :=
  if g.isKernelElementwise i then (g.input i).foldl (chainInput g i) s else s

/-- A node joins all the readers of its first output, if they are of the kind. -/
def joinReaders (kind : Nat → Bool) (s : State) (p : Nat) : State :=
  let out := g.firstOutput p
  let readers := g.consumers out
  if readers = [] ∨ out ∈ g.outputs then s
  else if readers.all kind then s.join (p :: readers)
  else s

def viewNode (s : State) (v : Nat) : State :=
  if ¬ g.isViewJoiner v ∨ g.firstOutput v = "" then s
  else
    let out := g.firstOutput v
    let readers := g.consumers out
    if readers = [] ∨ out ∈ g.outputs then s
    else if readers.all g.isKernelElementwise then s.join (v :: readers)
    else
      match readers with
      | [r] => if g.isKernelEpilogueProducer r then s.join [v, r] else s
      | _ => s

def epilogueNode (viewMode : Bool) (s : State) (p : Nat) : State :=
  if ¬ g.isKernelEpilogueProducer p ∨ g.firstOutput p = "" then s
  else joinReaders g (fun c => g.isKernelElementwise c || viewMode && g.isViewJoiner c) s p

def feeds (kind : Nat → Bool) (p : Nat) : List String :=
  (g.input p).filter fun x => (g.producer x).any kind

/-- Walk back from a score tensor to the MatMul it is made by. -/
def flashWalk : Nat → List Nat → String → Option (Nat × List Nat)
  | 0, _, _ => none
  | fuel + 1, chain, name =>
    match g.producer name with
    | none => none
    | some p =>
      if name ∈ g.outputs ∨ (g.consumers name).length ≠ 1 then none
      else if g.isMatMul p then some (p, chain)
      else if ¬ g.isKernelElementwise p then none
      else
        match feeds g (fun q => g.isKernelElementwise q || g.isMatMul q) p with
        | [next] => flashWalk fuel (chain ++ [p]) next
        | _ => none

def flashMembers (s : Nat) : Option (List Nat) :=
  if ¬ g.isOp ["Softmax"] s ∨ (g.input s).headD "" = "" ∨ g.firstOutput s = "" ∨ g.firstOutput s ∈ g.outputs then none
  else
    match g.consumers (g.firstOutput s) with
    | [m2] =>
      if ¬ g.isMatMul m2 then none
      else
        match flashWalk g 5 [] ((g.input s).headD "") with
        | some (m1, chain) => if m1 = m2 then none else some (m1 :: chain ++ [s, m2])
        | none => none
    | _ => none

def flashNode (s : State) (sm : Nat) : State :=
  match flashMembers g sm with
  | none => s
  | some members => if 2 < s.total members then s else s.unite members

/-- Walk back through the elementwise nodes that only feed a reduction. -/
def prologue : Nat → String → List Nat
  | 0, _ => []
  | fuel + 1, name =>
    match g.producer name with
    | none => []
    | some p =>
      if name ∈ g.outputs ∨ (g.consumers name).length ≠ 1 ∨ ¬ g.isKernelElementwise p then []
      else
        match feeds g g.isKernelElementwise p with
        | [next] => p :: prologue fuel next
        | _ => [p]

def reduceNode (s : State) (r : Nat) : State :=
  if ¬ g.isOp kernelReduceOps r ∨ (g.input r).headD "" = "" ∨ g.firstOutput r = "" then s
  else
    let before := prologue g 8 ((g.input r).headD "")
    joinReaders g g.isKernelElementwise (if before = [] then s else s.join (r :: before)) r

def initial : State := ⟨.new, fun i => if g.isKernelEpilogueProducer i then 1 else 0, []⟩

variable (viewMode flashAttention reductionFusion : Bool)

def joined : State :=
  let s := g.indices.foldl (chainNode g) (initial g)
  let s := if viewMode then g.indices.foldl (viewNode g) s else s
  let s := g.indices.foldl (epilogueNode g viewMode) s
  let s := if flashAttention then g.indices.foldl (flashNode g) s else s
  if reductionFusion then g.indices.foldl (reduceNode g) s else s

/-- The class of a node that is in a group, and a key of its own for any other node. -/
def groupKey (s : State) (i : Nat) : Int :=
  if g.isKernelElementwise i ∨ i ∈ s.merged then (s.find i : Int) else -((i : Int) + 1)

/-- The indices of every key in their order, the keys in the order in which they first appear. -/
def groupsOf (s : State) : List (List Nat) :=
  ((g.indices.map (groupKey g s)).reverse.dedup.reverse).map fun k => g.indices.filter fun i => groupKey g s i = k

/-- `_kernel_groups` -/
def kernelGroups : List (List Nat) := groupsOf g (joined g viewMode flashAttention reductionFusion)

end

variable (g : Graph)

/-- A node reads what another one produces, itself or in a nested body. -/
def Graph.Reads (a b : Nat) : Prop := ∃ x ∈ g.output a, x ≠ "" ∧ (x ∈ g.input b ∨ x ∈ g.captured b)

instance (a b : Nat) : Decidable (g.Reads a b) :=
  inferInstanceAs (Decidable (∃ x ∈ g.output a, x ≠ "" ∧ (x ∈ g.input b ∨ x ∈ g.captured b)))

def Graph.Sorted : Prop := ∀ a b, g.Reads a b → a < b

def Convex (group : List Nat) : Prop :=
  ∀ a ∈ group, ∀ x ∉ group, ∀ b ∈ group, g.Reads a x → ¬ Relation.ReflTransGen g.Reads x b

/-- A node that another one of the group reads has no other reader. -/
def SingleReader (group : List Nat) : Prop :=
  ∀ a ∈ group, ∀ b ∈ group, g.Reads a b → ∀ c, g.Reads a c → c = b

/-- Executed in some order, no group reads what a later one produces. -/
def Schedulable (groups : List (List Nat)) : Prop :=
  ∃ order : List Nat → Nat, ∀ G ∈ groups, ∀ H ∈ groups, ∀ a ∈ G, ∀ b ∈ H, g.Reads a b → G = H ∨ order G < order H

def matmulsOf (group : List Nat) : Nat := group.countP g.isKernelEpilogueProducer

def FlashJoined (group : List Nat) : Prop := ∃ s members, flashMembers g s = some members ∧ ∀ m ∈ members, m ∈ group

end Onnxsim.Traffic.Groups
