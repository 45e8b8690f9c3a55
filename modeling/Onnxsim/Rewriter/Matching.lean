import Mathlib.Data.List.Basic

namespace Onnxsim.Rewriter.Matching

/-- `content` is all but the name. -/
structure TensorProto (C : Type) where
  name : String
  content : C
deriving DecidableEq

/-- `rest` is what the matcher only compares. -/
structure AttributeProto (C V : Type) where
  name : String
  refAttrName : String
  t : Option (TensorProto C)
  rest : V
deriving DecidableEq

structure NodeProto (C V : Type) where
  opType : String
  domain : String
  input : List String
  output : List String
  attributes : List (AttributeProto C V)
deriving DecidableEq

structure GraphProto (C V : Type) where
  node : List (NodeProto C V)
  initializer : List (TensorProto C)

structure FunctionProto (C V : Type) where
  input : List String
  node : List (NodeProto C V)

variable {C V : Type} [DecidableEq C] [DecidableEq V]

def normDomain (domain : String) : String := if domain = "ai.onnx" then "" else domain

def sameOp (a b : NodeProto C V) : Bool := a.opType = b.opType ∧ normDomain a.domain = normDomain b.domain

def findAttr (node : NodeProto C V) (name : String) : Option (AttributeProto C V) :=
  node.attributes.find? fun a => a.name = name

def kCommutative : List String :=
  ["Add", "Mul", "And", "Or", "Xor", "Max", "Min", "Sum", "Mean", "BitwiseAnd", "BitwiseOr", "BitwiseXor"]

def isCommutative (node : NodeProto C V) : Bool := normDomain node.domain = "" ∧ node.opType ∈ kCommutative

/-- The outputs that have a name, with the node and the slot that they come from. -/
def outputs (nodes : List (NodeProto C V)) : List (String × Nat × Nat) :=
  nodes.zipIdx.flatMap fun n => (n.1.output.zipIdx.filter fun o => o.1 ≠ "").map fun o => (o.1, n.2, o.2)

def producer (nodes : List (NodeProto C V)) (value : String) : Option (Nat × Nat) := (outputs nodes).reverse.lookup value

def initializerOf (g : GraphProto C V) (name : String) : Option (TensorProto C) :=
  g.initializer.reverse.find? fun t => t.name = name

structure MatchState (C V : Type) where
  vbind : List (String × String)
  abind : List (String × AttributeProto C V)
  nodeMap : List (Nat × Nat)
deriving DecidableEq

def matchAttribute (h : NodeProto C V) (abind : List (String × AttributeProto C V)) (pa : AttributeProto C V) :
    Option (List (String × AttributeProto C V)) :=
  match findAttr h pa.name with
  | none => none
  | some ha =>
    if pa.refAttrName ≠ "" then
      match abind.lookup pa.refAttrName with
      | some bound => if bound = { ha with name := "" } then some abind else none
      | none => some ((pa.refAttrName, { ha with name := "" }) :: abind)
    else if pa = ha then some abind else none

def matchAttributes (p h : NodeProto C V) (abind : List (String × AttributeProto C V)) :
    Option (List (String × AttributeProto C V)) := p.attributes.foldlM (matchAttribute h) abind

/-- A Constant of the pattern matches an initializer of the host. -/
def constantMatches (p : NodeProto C V) (init : Option (TensorProto C)) : Bool :=
  p.opType = "Constant" ∧ normDomain p.domain = "" ∧
    ∃ value ∈ findAttr p "value", ∃ t ∈ value.t, ∃ i ∈ init, t.content = i.content

variable (pat : FunctionProto C V) (host : GraphProto C V)

/-- `matchNode` matches a node of the pattern with one of the host. -/
def matchValue (matchNode : Nat → Nat → MatchState C V → Option (MatchState C V)) (pval hval : String)
    (s : MatchState C V) : Option (MatchState C V) :=
  if pval ∈ pat.input then
    match s.vbind.lookup pval with
    | some bound => if bound = hval then some s else none
    | none => some { s with vbind := (pval, hval) :: s.vbind }
  else
    match producer pat.node pval with
    | none => none
    | some (p, slot) =>
      match producer host.node hval with
      | none => if ∃ pnode ∈ pat.node[p]?, constantMatches pnode (initializerOf host hval) = true then some s else none
      | some (h, slot') => if slot' ≠ slot then none else matchNode p h s

def matchInput (matchNode : Nat → Nat → MatchState C V → Option (MatchState C V)) (s : MatchState C V)
    (operand : String × String) : Option (MatchState C V) :=
  if operand.1 = "" ∨ operand.2 = "" then if operand.1 = "" ∧ operand.2 = "" then some s else none
  else matchValue pat host matchNode operand.1 operand.2 s

/-- The checks before the operands, and the entry for the node. -/
def enter (p h : Nat) (s : MatchState C V) : Option (MatchState C V) :=
  match pat.node[p]?, host.node[h]? with
  | some pnode, some hnode =>
    if (∃ kv ∈ s.nodeMap, kv.2 = h) ∨ sameOp pnode hnode = false ∨ pnode.input.length ≠ hnode.input.length then none
    else (matchAttributes pnode hnode s.abind).map fun abind => { s with abind := abind, nodeMap := (p, h) :: s.nodeMap }
  | _, _ => none

def orders (p : NodeProto C V) : List (List Nat) :=
  if p.input.length = 2 ∧ isCommutative p = true then [List.range p.input.length, [1, 0]] else [List.range p.input.length]

def operands (p h : NodeProto C V) (order : List Nat) : List (String × String) :=
  p.input.zip (order.map fun i => h.input.getD i "")

def alternatives (p h : Nat) : List (List (String × String)) :=
  match pat.node[p]?, host.node[h]? with
  | some pnode, some hnode => (orders pnode).map (operands pnode hnode)
  | _, _ => []

def matchNode : Nat → Nat → Nat → MatchState C V → Option (MatchState C V)
  | 0, _, _, _ => none
  | fuel + 1, p, h, s =>
    match s.nodeMap.lookup p with
    | some h' => if h' = h then some s else none
    | none =>
      (enter pat host p h s).bind fun trial =>
        (alternatives pat host p h).findSome? fun operands => operands.foldlM (matchInput pat host (matchNode fuel)) trial

/-- Every nested call of the matcher maps one more node of the pattern. -/
def matchRoot (root h : Nat) : Option (MatchState C V) := matchNode pat host (pat.node.length + 1) root h ⟨[], [], []⟩

end Onnxsim.Rewriter.Matching
