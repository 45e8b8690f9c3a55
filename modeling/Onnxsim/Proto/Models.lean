import Onnxsim.Lib.Bytes

namespace Onnxsim.Proto.Graphs

open List Lib.Bytes

structure Tensor where
  elemType : Int
  dims : List Int
  data : ByteString
  deriving DecidableEq

mutual

/-- The parts of an `AttributeProto` that the modelled code looks at. -/
inductive Attr where
  | tensor (name : String) (t : Tensor)
  | graph (name : String) (g : Graph)
  | graphs (name : String) (gs : List Graph)
  | ints (name : String) (is : List Int)
  | other (name payload : String)

inductive Node where
  | mk (name domain opType : String) (input output : List String) (attrs : List Attr)

inductive Graph where
  | mk (node : List Node) (input : List String) (initializer : List (String × Tensor))
      (output : List String)

end

namespace Attr

def name : Attr → String
  | .tensor n _ => n
  | .graph n _ => n
  | .graphs n _ => n
  | .ints n _ => n
  | .other n _ => n

def isGraph : Attr → Bool
  | .graph _ _ => true
  | .graphs _ _ => true
  | _ => false

end Attr

namespace Node

def name : Node → String
  | .mk n _ _ _ _ _ => n

def domain : Node → String
  | .mk _ d _ _ _ _ => d

def opType : Node → String
  | .mk _ _ t _ _ _ => t

def input : Node → List String
  | .mk _ _ _ i _ _ => i

def output : Node → List String
  | .mk _ _ _ _ o _ => o

def attrs : Node → List Attr
  | .mk _ _ _ _ _ a => a

end Node

def nonempty (names : List String) : List String := names.filter (· ≠ "")

mutual

/-- `CollectUsedTensorNames`: every name read in a graph, at any depth, and its outputs. -/
def Graph.used : Graph → List String
  | .mk node _ _ output => usedNodes node ++ output

def usedNodes : List Node → List String
  | [] => []
  | n :: ns => Node.used n ++ usedNodes ns

def Node.used : Node → List String
  | .mk _ _ _ input _ attrs => nonempty input ++ usedAttrs attrs

def usedAttrs : List Attr → List String
  | [] => []
  | a :: as => Attr.used a ++ usedAttrs as

def Attr.used : Attr → List String
  | .graph _ g => Graph.used g
  | .graphs _ gs => usedGraphs gs
  | _ => []

def usedGraphs : List Graph → List String
  | [] => []
  | g :: gs => Graph.used g ++ usedGraphs gs

end

def Graph.defined : Graph → List String
  | .mk node input initializer _ =>
    input ++ initializer.map Prod.fst ++ node.flatMap fun n => nonempty n.output

mutual

def Graph.free : Graph → List String
  | .mk node input initializer output =>
    (freeNodes node ++ output).filter fun x => x ∉ Graph.defined (.mk node input initializer output)

def freeNodes : List Node → List String
  | [] => []
  | n :: ns => Node.reads n ++ freeNodes ns

/-- What a node reads: its inputs and the names its subgraphs capture. -/
def Node.reads : Node → List String
  | .mk _ _ _ input _ attrs => nonempty input ++ freeAttrs attrs

def freeAttrs : List Attr → List String
  | [] => []
  | a :: as => Attr.free a ++ freeAttrs as

def Attr.free : Attr → List String
  | .graph _ g => Graph.free g
  | .graphs _ gs => freeGraphs gs
  | _ => []

def freeGraphs : List Graph → List String
  | [] => []
  | g :: gs => Graph.free g ++ freeGraphs gs

end

mutual

theorem Graph.free_subset_used : ∀ g : Graph, ∀ x ∈ g.free, x ∈ g.used
  | .mk node input initializer output, x, hx => by
    rw [Graph.free, mem_filter, mem_append] at hx
    rw [Graph.used, mem_append]
    exact hx.1.imp_left (freeNodes_subset_used node x)

theorem freeNodes_subset_used : ∀ ns : List Node, ∀ x ∈ freeNodes ns, x ∈ usedNodes ns
  | [], _, hx => by simp [freeNodes] at hx
  | n :: ns, x, hx => by
    rw [freeNodes, mem_append] at hx
    rw [usedNodes, mem_append]
    exact hx.imp (Node.reads_subset_used n x) (freeNodes_subset_used ns x)

theorem Node.reads_subset_used : ∀ n : Node, ∀ x ∈ n.reads, x ∈ n.used
  | .mk _ _ _ input _ attrs, x, hx => by
    rw [Node.reads, mem_append] at hx
    rw [Node.used, mem_append]
    exact hx.imp_right (freeAttrs_subset_used attrs x)

theorem freeAttrs_subset_used : ∀ as : List Attr, ∀ x ∈ freeAttrs as, x ∈ usedAttrs as
  | [], _, hx => by simp [freeAttrs] at hx
  | a :: as, x, hx => by
    rw [freeAttrs, mem_append] at hx
    rw [usedAttrs, mem_append]
    exact hx.imp (Attr.free_subset_used a x) (freeAttrs_subset_used as x)

theorem Attr.free_subset_used : ∀ a : Attr, ∀ x ∈ a.free, x ∈ a.used
  | .graph _ g, x, hx => by
    rw [Attr.free] at hx
    rw [Attr.used]
    exact Graph.free_subset_used g x hx
  | .graphs _ gs, x, hx => by
    rw [Attr.free] at hx
    rw [Attr.used]
    exact freeGraphs_subset_used gs x hx
  | .tensor _ _, _, hx => by simp [Attr.free] at hx
  | .ints _ _, _, hx => by simp [Attr.free] at hx
  | .other _ _, _, hx => by simp [Attr.free] at hx

theorem freeGraphs_subset_used : ∀ gs : List Graph, ∀ x ∈ freeGraphs gs, x ∈ usedGraphs gs
  | [], _, hx => by simp [freeGraphs] at hx
  | g :: gs, x, hx => by
    rw [freeGraphs, mem_append] at hx
    rw [usedGraphs, mem_append]
    exact hx.imp (Graph.free_subset_used g x) (freeGraphs_subset_used gs x)

end

variable {x : String}

theorem nonempty_singleton (h : x ≠ "") : nonempty [x] = [x] := by simp [nonempty, h]

theorem Node.mem_reads_of_input {n : Node} (h : x ∈ n.input) (hne : x ≠ "") : x ∈ n.reads := by
  cases n
  rw [Node.reads]
  apply mem_append_left
  exact mem_filter.mpr ⟨h, by simpa using hne⟩

theorem Node.mem_input_of_reads {m : Node} (hattrs : freeAttrs m.attrs = []) (hx : x ∈ m.reads) :
    x ∈ m.input ∧ x ≠ "" := by
  cases m with
  | mk name domain op input output attrs =>
    have hnone : freeAttrs attrs = [] := hattrs
    rw [Node.reads, hnone, append_nil] at hx
    obtain ⟨hmem, hne⟩ := mem_filter.mp hx
    exact ⟨hmem, by simpa using hne⟩

end Onnxsim.Proto.Graphs

namespace Onnxsim.Proto.Models

open Graphs

/-- A dimension of an inferred shape; `none` when it has no `dim_value`. -/
abbrev Dim := Option Int

structure TensorType where
  elemType : Int
  shape : Option (List Dim)
  deriving DecidableEq

structure ValueInfo where
  name : String
  type : Option TensorType
  deriving DecidableEq

structure Model where
  irVersion : Int
  opsetImport : List (String × Int)
  node : List Node
  input : List ValueInfo
  initializer : List (String × Tensor)
  output : List String
  valueInfo : List ValueInfo

def Model.inputNames (m : Model) : List String := m.input.map ValueInfo.name

def Model.initializerNames (m : Model) : List String := m.initializer.map Prod.fst

def isDefaultDomain (domain : String) : Bool := domain = "" || domain = "ai.onnx"

def isConstantOp (n : Node) : Bool := isDefaultDomain n.domain && n.opType = "Constant"

end Onnxsim.Proto.Models
