import Onnxsim.Lib.FreshNames
import Onnxsim.Proto.Models

namespace Onnxsim.Bitwise.Decomposition

open Lib.FreshNames
open Proto.Graphs
open Proto.Models (isDefaultDomain)

inductive Dim where
  | value (n : Nat)
  | param (name : String)
  | unknown
deriving DecidableEq

/-- `elemType` is 0 where none is declared. -/
structure ValueInfo where
  name : String
  elemType : Int
  shape : Option (List Dim)
deriving DecidableEq

/-- Initializers with their element types. -/
structure Graph where
  node : List Node
  input : List ValueInfo
  output : List ValueInfo
  valueInfo : List ValueInfo
  initializer : List (String × Int)

def Graph.infos (g : Graph) : List ValueInfo := g.valueInfo ++ g.input ++ g.output

def integerElemTypes : List Int := [2, 3, 4, 5, 12, 6, 13, 7]

abbrev Types := String → Option Int

def declare (types : Types) (v : ValueInfo) : Types :=
  if v.elemType ≠ 0 then Function.update types v.name (some v.elemType) else types

def sameType : List String := ["BitwiseXor", "BitwiseAnd", "BitwiseOr", "Not", "Neg", "Abs", "Identity"]

def inferOutput (n : Node) (types : Types) (name : String) : Types :=
  if name ≠ "" ∧ types name = none ∧ n.opType ∈ sameType then
    match n.input with
    | [] => types
    | source :: _ =>
      match types source with
      | none => types
      | some t => Function.update types name (some t)
  else types

def elemTypes (g : Graph) : Types :=
  let declared := g.infos.foldl declare fun _ => none
  let initialized := g.initializer.foldl (fun (types : Types) p => Function.update types p.1 (some p.2)) declared
  g.node.foldl (fun types n => n.output.foldl (inferOutput n) types) initialized

def usedNames (g : Graph) : List String :=
  (g.input ++ g.output ++ g.valueInfo).map ValueInfo.name ++ g.initializer.map Prod.fst ++
    g.node.flatMap fun n => nonempty n.input ++ nonempty n.output

def isXor (n : Node) : Bool := n.opType = "BitwiseXor" && isDefaultDomain n.domain

def Rewritable (types : Types) (n : Node) : Prop :=
  isXor n = true ∧ (∀ x ∈ n.input.take 2, (types x).getD 0 ∈ integerElemTypes) ∧
    n.input.length = 2 ∧ n.output.length = 1 ∧ ¬ ∃ a ∈ n.attrs, a.name = "direction"

instance (types : Types) (n : Node) : Decidable (Rewritable types n) :=
  inferInstanceAs (Decidable (_ ∧ _ ∧ _ ∧ _ ∧ _))

def baseName (n : Node) (out : String) : String := if n.name = "" then out else n.name

def orNode (n : Node) (a b out orName : String) : Node :=
  .mk (baseName n out ++ "_or") "" "BitwiseOr" [a, b] [orName] []

def andNode (n : Node) (a b out andName : String) : Node :=
  .mk (baseName n out ++ "_and") "" "BitwiseAnd" [a, b] [andName] []

def subNode (n : Node) (out orName andName : String) : Node :=
  .mk (baseName n out) "" "Sub" [orName, andName] [out] []

/-- The new nodes, and for every new tensor the operand whose value info it takes over. An XOR whose result
has no name makes the pass fail. -/
def rewriteNodes (types : Types) : List Node → Naming → Option (List Node × List (String × String))
  | [], _ => some ([], [])
  | n :: ns, s =>
    if Rewritable types n then
      match n.input, n.output with
      | [a, b], [out] =>
        if out = "" then none
        else do
          let o := fresh (baseName n out ++ "_bor") s
          let p := fresh (baseName n out ++ "_band") o.2
          let rest ← rewriteNodes types ns p.2
          some (orNode n a b out o.1 :: andNode n a b out p.1 :: subNode n out o.1 p.1 :: rest.1,
            (o.1, a) :: (p.1, b) :: rest.2)
      | _, _ => none
    else do
      let rest ← rewriteNodes types ns s
      some (n :: rest.1, rest.2)

def byName (g : Graph) (x : String) : Option ValueInfo := g.infos.reverse.find? fun v => v.name = x

def rebuildValueInfo (g : Graph) (derived : List (String × String)) : List ValueInfo :=
  derived.filterMap fun p => (byName g p.2).map fun v => { v with name := p.1 }

def decomposeBitwiseXor (g : Graph) : Option Graph :=
  if g.node.any isXor then do
    let new ← rewriteNodes (elemTypes g) g.node ⟨usedNames g, 0⟩
    if new.2 = [] then some g
    else some { g with
      node := new.1
      valueInfo := g.valueInfo ++ (rebuildValueInfo g new.2).filter fun v =>
        v.name ∉ g.valueInfo.map ValueInfo.name }
  else some g

end Onnxsim.Bitwise.Decomposition
