import Mathlib.Data.List.Sort
import Mathlib.Data.String.Basic
import Onnxsim.Lib.OrderedMaps

namespace Onnxsim.Versioning.Graphs

open Lib.OrderedMaps

structure Attribute where
  name : String
  serialized : List UInt8
deriving DecidableEq, Repr

/-- An omitted output is the empty name. -/
structure Node where
  name : String
  domain : String
  opType : String
  inputs : List String
  outputs : List String
  attributes : List Attribute
deriving DecidableEq, Repr

structure NodeKey where
  domain : String
  opType : String
  inputs : List String
  outputs : List String
  attrs : List (List UInt8)
deriving DecidableEq

def nodeKey (n : Node) : NodeKey :=
  ⟨n.domain, n.opType, n.inputs, n.outputs,
    (n.attributes.insertionSort fun a b => a.name ≤ b.name).map Attribute.serialized⟩

def nodeLabel (n : Node) : String :=
  if n.name = "" then n.opType ++ ":" ++ n.outputs.head?.getD "" else n.name

/-- The parts of a model's graph that a bisection compares; `τ` are the tensors. -/
structure Graph (τ : Type) where
  nodes : List Node
  initializers : List (String × τ)
  inputs : List String
  outputs : List String

def firstOut (first : SortedMap String Nat) (i : Nat) : List Node → SortedMap String Nat
  | [] => first
  | n :: ns =>
    match n.outputs.head? with
    | none => firstOut first (i + 1) ns
    | some o =>
      firstOut (if (first.find? o).isSome then first else first.insert o i) (i + 1) ns

/-- For each candidate node with a first output, the base node that `_match_nodes` pairs it with. -/
def matchPairs (bn cn : List Node) : List (Nat × Nat) :=
  cn.zipIdx.filterMap fun e =>
    (e.1.outputs.head?.bind (firstOut .empty 0 bn).find?).map fun i => (e.2, i)

def matchNodes (bn cn : List Node) : SortedMap Nat Nat × SortedMap Nat Nat :=
  let matched := SortedMap.ofList (matchPairs bn cn)
  (matched, SortedMap.ofList (matched.entries.map fun e => (e.2, e.1)))

def activationTails : List String :=
  ["Relu", "Clip", "Sigmoid", "Tanh", "HardSigmoid", "HardSwish", "LeakyRelu", "Elu", "Gelu", "Add",
    "Mul", "BatchNormalization"]

def fusionPreset (fusion : String) : Option (List String × List String) :=
  if fusion = "node" then some ([], [])
  else if fusion = "conv-act" then some (["Conv", "ConvTranspose"], activationTails)
  else if fusion = "matmul-act" then some (["MatMul", "Gemm"], activationTails)
  else if fusion = "default" then some (["Conv", "ConvTranspose", "MatMul", "Gemm"], activationTails)
  else none

def countUse (uses : SortedMap String Nat) (t : String) : SortedMap String Nat :=
  if t = "" then uses else uses.insert t ((uses.find? t).getD 0 + 1)

def useCounts (nodes : List Node) (outputs : List String) : SortedMap String Nat :=
  (nodes.flatMap Node.inputs).foldl countUse (SortedMap.ofList (outputs.map fun o => (o, 1)))

/-- Block id of each node; `openOut` has the tensors through which a block can still grow. -/
def fusionLoop (heads tails : List String) (uses : SortedMap String Nat) (openOut : SortedMap String Nat)
    (idx : Nat) : List Node → List Nat
  | [] => []
  | n :: ns =>
    let first := n.inputs.head?.getD ""
    let joined := n.opType ∈ tails ∧ (openOut.find? first).isSome ∧ (uses.find? first).getD 0 = 1
    let bid := if joined then (openOut.find? first).getD idx else idx
    let openOut := if joined then openOut.erase first else openOut
    let openOut :=
      match n.outputs.head? with
      | some o => if o ≠ "" ∧ (joined ∨ n.opType ∈ heads) then openOut.insert o bid else openOut
      | none => openOut
    bid :: fusionLoop heads tails uses openOut (idx + 1) ns

/-- What planning or building a state raises. -/
inductive VersionError where
  | unknownFusion (fusion : String)
  | digest (dtype : String)
  | producedTwice (t : String)
  | nothingProduces (node t : String)
  | cycle
  | outputNotProduced (o : String)
deriving DecidableEq, Repr

def fusionBlocks (nodes : List Node) (outputs : List String) (fusion : String) :
    Except VersionError (List Nat) :=
  match fusionPreset fusion with
  | none => .error (.unknownFusion fusion)
  | some (heads, tails) => .ok (fusionLoop heads tails (useCounts nodes outputs) .empty 0 nodes)

variable {τ : Type}

/-- The tensors that nodes produce, omitted outputs left out. -/
def produced (ns : List Node) : List String := ns.flatMap fun n => n.outputs.filter fun t => t ≠ ""

def Ordered (uses : Node → List String) (avail : List String) (ns : List Node) : Prop :=
  ∀ before n after, ns = before ++ n :: after →
    ∀ t ∈ uses n, t ≠ "" → t ∈ avail ∨ t ∈ produced before

theorem ordered_iff {uses : Node → List String} {avail : List String} {ns : List Node} :
    Ordered uses avail ns ↔ ∀ k, ∀ h : k < ns.length, ∀ t ∈ uses ns[k], t ≠ "" →
      t ∈ avail ∨ t ∈ produced (ns.take k) := by
  constructor
  · intro h k hk
    have hsplit : ns = ns.take k ++ ns[k] :: ns.drop (k + 1) := by simp
    exact h _ _ _ hsplit
  · rintro h before n after rfl
    have hlt : before.length < (before ++ n :: after).length := by simp
    have hnode := h before.length hlt
    simpa using hnode

instance (uses : Node → List String) (avail : List String) (ns : List Node) :
    Decidable (Ordered uses avail ns) := decidable_of_iff' _ ordered_iff

def Graph.initNames (g : Graph τ) : List String := g.initializers.map Prod.fst

def Graph.avail (g : Graph τ) : List String := g.inputs ++ g.initNames

/- `reads` parses a serialized attribute: the tensors that graphs in it read from outside. -/
variable (reads : List UInt8 → List String)

def Node.captures (n : Node) : List String := n.attributes.flatMap fun a => reads a.serialized

def Node.uses (n : Node) : List String := n.inputs ++ n.captures reads

/-- A graph in single assignment form: topologically ordered, each tensor produced once. -/
structure Valid (g : Graph τ) : Prop where
  names : g.initNames.Nodup
  single : (produced g.nodes).Nodup
  fresh : ∀ t ∈ produced g.nodes, t ∉ g.avail
  ordered : Ordered (Node.uses reads) g.avail g.nodes
  outputs : ∀ o ∈ g.outputs, o ∈ g.avail ∨ o ∈ produced g.nodes

theorem valid_iff {g : Graph τ} : Valid reads g ↔ g.initNames.Nodup ∧ (produced g.nodes).Nodup ∧
    (∀ t ∈ produced g.nodes, t ∉ g.avail) ∧ Ordered (Node.uses reads) g.avail g.nodes ∧
    ∀ o ∈ g.outputs, o ∈ g.avail ∨ o ∈ produced g.nodes :=
  ⟨fun h => ⟨h.names, h.single, h.fresh, h.ordered, h.outputs⟩,
    fun ⟨names, single, fresh, ordered, outputs⟩ => ⟨names, single, fresh, ordered, outputs⟩⟩

instance (g : Graph τ) : Decidable (Valid reads g) := decidable_of_iff' _ (valid_iff reads)

end Onnxsim.Versioning.Graphs

namespace Onnxsim.Versioning.Matching

open List Option Lib.OrderedMaps Graphs

/-- The index of the first node with the first output `o`. -/
def firstIndex (ns : List Node) (o : String) : Option Nat :=
  ns.findIdx? fun n => n.outputs.head? = some o

theorem find?_firstOut (o : String) (ns : List Node) (first : SortedMap String Nat) (i : Nat) :
    (firstOut first i ns).find? o = (first.find? o).or ((firstIndex ns o).map fun k => k + i) := by
  induction ns generalizing first i with
  | nil => simp [firstOut, firstIndex]
  | cons n ns ih =>
    have hcons : firstIndex (n :: ns) o =
        if n.outputs.head? = some o then some 0 else (firstIndex ns o).map fun k => k + 1 := by
      rw [firstIndex, findIdx?_cons]
      simp only [decide_eq_true_eq]
      rfl
    have hshift : ((firstIndex ns o).map fun k => k + 1).map (fun k => k + i) =
        (firstIndex ns o).map fun k => k + (i + 1) := by
      rw [Option.map_map]
      congr 1
      funext k
      exact Nat.add_right_comm k 1 i
    rw [firstOut, hcons]
    cases hn : n.outputs.head? with
    | none =>
      rw [if_neg (by simp), hshift]
      exact ih first (i + 1)
    | some o' =>
      rw [ih]
      by_cases ho : o' = o
      · subst ho
        rw [if_pos rfl, map_some, Nat.zero_add]
        cases hfirst : first.find? o' with
        | some k => simp [hfirst]
        | none => simp
      · rw [if_neg fun h => ho (Option.some.inj h), hshift]
        split
        · rfl
        · rw [SortedMap.find?_insert, if_neg (Ne.symm ho)]

variable {bn cn : List Node} {i j : Nat}

theorem mem_matchPairs :
    (j, i) ∈ matchPairs bn cn ↔
      ∃ n o, cn[j]? = some n ∧ n.outputs.head? = some o ∧ firstIndex bn o = some i := by
  have hfirst : (firstOut .empty 0 bn).find? = firstIndex bn := by
    funext o
    rw [find?_firstOut, SortedMap.find?_empty, none_or]
    cases firstIndex bn o <;> rfl
  rw [matchPairs, mem_filterMap, hfirst]
  constructor
  · rintro ⟨⟨n, k⟩, hmem, hmap⟩
    obtain ⟨i', hi', heq⟩ := map_eq_some_iff.mp hmap
    cases heq
    obtain ⟨o, ho, hi⟩ := bind_eq_some_iff.mp hi'
    exact ⟨n, o, mem_zipIdx_iff_getElem?.mp hmem, ho, hi⟩
  · rintro ⟨n, o, hn, ho, hi⟩
    refine ⟨(n, j), mem_zipIdx_iff_getElem?.mpr hn, ?_⟩
    rw [ho, bind_some, hi]
    rfl

theorem matched_iff :
    (matchNodes bn cn).1.find? j = some i ↔
      ∃ n o, cn[j]? = some n ∧ n.outputs.head? = some o ∧ firstIndex bn o = some i := by
  rw [← mem_matchPairs]
  constructor
  · exact SortedMap.mem_of_find?_ofList
  · intro h
    obtain ⟨w, l₁, l₂, hl, hw, -⟩ := SortedMap.find?_ofList_of_mem h
    obtain ⟨n, o, hn, ho, hi⟩ := mem_matchPairs.mp h
    have hmem : (j, w) ∈ matchPairs bn cn := by
      rw [hl]
      simp
    obtain ⟨n', o', hn', ho', hw'⟩ := mem_matchPairs.mp hmem
    rw [hn] at hn'
    cases hn'
    rw [ho] at ho'
    cases ho'
    rw [hi] at hw'
    cases hw'
    exact hw

theorem matched_of_inverse (h : (matchNodes bn cn).2.find? i = some j) : (matchNodes bn cn).1.find? j = some i := by
  have hmem := SortedMap.mem_of_find?_ofList h
  obtain ⟨⟨j', i'⟩, he, heq⟩ := List.mem_map.mp hmem
  cases heq
  exact (SortedMap.find?_eq_some_iff _ _ _).mpr he

theorem inverse_of_matched (h : (matchNodes bn cn).1.find? j = some i) :
    ∃ j', (matchNodes bn cn).2.find? i = some j' ∧ j ≤ j' := by
  have hle : ((matchNodes bn cn).1.entries.map fun e => (e.2, e.1)).Pairwise fun a b => a.2 ≤ b.2 := by
    rw [pairwise_map]
    exact (matchNodes bn cn).1.sorted.imp fun hlt => hlt.le
  apply SortedMap.le_find?_ofList hle
  exact List.mem_map.mpr ⟨(j, i), (SortedMap.find?_eq_some_iff _ _ _).mp h, rfl⟩

theorem lt_of_firstIndex {o : String} (h : firstIndex bn o = some i) : i < bn.length := (findIdx?_eq_some_iff_findIdx_eq.mp h).1

theorem matched_lt (h : (matchNodes bn cn).1.find? j = some i) : j < cn.length ∧ i < bn.length := by
  obtain ⟨n, o, hn, -, hi⟩ := matched_iff.mp h
  exact ⟨(List.getElem?_eq_some_iff.mp hn).1, lt_of_firstIndex hi⟩

end Onnxsim.Versioning.Matching
