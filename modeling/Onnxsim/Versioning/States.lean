import Onnxsim.Lib.Classes
import Onnxsim.Lib.Dicts
import Onnxsim.Lib.Kahn
import Onnxsim.Versioning.Matching

namespace Onnxsim.Versioning.Planning

open Lib.Classes Lib.Dicts Lib.OrderedMaps Graphs

variable {τ δ : Type} [DecidableEq δ]

inductive ItemRef where
  | base (i : Nat)
  | cand (j : Nat)
  | init (name : String)
deriving DecidableEq

/-- The fusion block of a node, or the node itself when it is an added one outside any block. -/
inductive BlockKey where
  | block (b : Nat)
  | cand (j : Nat)
deriving DecidableEq

/-- One change: a base node that goes, a candidate node that comes, an initializer that differs. Initializers
stand before the nodes. -/
structure Item where
  ref : ItemRef
  produced : List String
  consumed : List String
  position : Int
  key : Option BlockKey

/-- A connected group of changes, applied or reverted together; the last three fields are what a state
is built from. -/
structure ChangeUnit where
  index : Nat
  nodes : List String
  initializers : List String
  blocks : List String
  removed : List Nat
  added : List Nat
  names : List String

/-- What planning knows about the two graphs. -/
structure Comparison where
  bn : List Node
  cn : List Node
  matched : SortedMap Nat Nat
  inverse : SortedMap Nat Nat
  blockOf : List Nat

namespace Comparison

variable (c : Comparison)

def block (i : Nat) : Nat := c.blockOf.getD i i

def members (b : Nat) : List Nat := (List.range c.bn.length).filter fun i => c.block i = b

def candKey (j : Nat) : Option NodeKey := (c.cn[j]?).map nodeKey

def baseKey (i : Nat) : Option NodeKey := (c.bn[i]?).map nodeKey

def diffCand : List Nat :=
  (List.range c.cn.length).filter fun j =>
    match c.matched.find? j with
    | none => true
    | some i => c.candKey j ≠ c.baseKey i

def diffBase : List Nat :=
  ((List.range c.bn.length).filter fun i => (c.inverse.find? i).isNone) ++
    c.diffCand.filterMap c.matched.find?

def blockOfTensor : SortedMap String Nat :=
  SortedMap.ofList (c.bn.zipIdx.flatMap fun e =>
    (e.1.outputs.filter fun o => o ≠ "").map fun o => (o, c.block e.2))

def position (i : Nat) : Int := ((c.inverse.find? i).getD (c.cn.length + i) : Nat)

def baseItem (i : Nat) : Item where
  ref := .base i
  produced := (c.bn[i]?).elim [] Node.outputs
  consumed := (c.bn[i]?).elim [] Node.inputs
  position := c.position i
  key := some (.block (c.block i))

def candBlock (j : Nat) : BlockKey :=
  match c.matched.find? j with
  | some i => .block (c.block i)
  | none =>
    match ((c.cn[j]?).elim [] Node.inputs).findSome? c.blockOfTensor.find? with
    | some b => .block b
    | none => .cand j

def candItem (j : Nat) : Item where
  ref := .cand j
  produced := (c.cn[j]?).elim [] Node.outputs
  consumed := (c.cn[j]?).elim [] Node.inputs
  position := j
  key := some (c.candBlock j)

def initItem (name : String) : Item where
  ref := .init name
  produced := [name]
  consumed := []
  position := -1
  key := none

def items (initDiff : List String) : List Item :=
  c.diffBase.map c.baseItem ++ c.diffCand.map c.candItem ++ initDiff.map initItem

end Comparison

/-- Does an initializer differ? Both tensors are digested where both graphs have it. -/
def initDiffers (digest : τ → Except VersionError δ) (base cand : SortedMap String τ) (name : String) :
    Except VersionError Bool :=
  match base.find? name, cand.find? name with
  | some t, some u => do
    let d ← digest t
    let e ← digest u
    .ok (d ≠ e)
  | _, _ => .ok true

def initDiff (digest : τ → Except VersionError δ) (base cand : Graph τ) :
    Except VersionError (List String) :=
  (SortedMap.ofList (base.initializers ++ cand.initializers)).keys.filterM
    (initDiffers digest (SortedMap.ofList base.initializers) (SortedMap.ofList cand.initializers))

def producers (items : List Item) : Dict String (List Nat) :=
  Dict.collect (items.zipIdx.flatMap fun e => (e.1.produced.filter fun t => t ≠ "").map fun t => (t, e.2))

/-- A consumer is joined with the producers of what it consumes. -/
def flowPairs (items : List Item) : List (Nat × Nat) :=
  items.zipIdx.flatMap fun e => e.1.consumed.flatMap fun t =>
    (((producers items).get? t).getD []).map fun p => (e.2, p)

def producerPairs (items : List Item) : List (Nat × Nat) :=
  (producers items).entries.flatMap fun e => e.2.tail.map fun p => (p, e.2.headD p)

/-- The items of one block are joined with the first of them. -/
def keyPairs (first : Dict BlockKey Nat) (k : Nat) : List Item → List (Nat × Nat)
  | [] => []
  | item :: rest =>
    match item.key with
    | none => keyPairs first (k + 1) rest
    | some key =>
      match first.get? key with
      | some f => (k, f) :: keyPairs first (k + 1) rest
      | none => keyPairs (first.set key k) (k + 1) rest

def parent (items : List Item) : UnionFind Nat :=
  .unionAll (flowPairs items ++ producerPairs items ++ keyPairs .empty 0 items)

def groups (items : List Item) : List (List Nat) :=
  (Dict.collect ((List.range items.length).map fun k => ((parent items).find k, k))).entries.map Prod.snd

def positionAt (items : List Item) (k : Nat) : Int := (items[k]?).elim 0 Item.position

def firstPosition (items : List Item) (group : List Nat) : Int :=
  ((group.map (positionAt items)).min?).getD 0

def orderedGroups (items : List Item) : List (List Nat) :=
  (groups items).insertionSort fun g h => firstPosition items g ≤ firstPosition items h

variable (c : Comparison)

def blockLabel : BlockKey → String
  | .block b => "+".intercalate ((c.members b).map fun i => (c.bn[i]?).elim "" Node.opType)
  | .cand j => (c.cn[j]?).elim "" nodeLabel

def refLabel : ItemRef → List String
  | .base i => [(c.bn[i]?).elim "" nodeLabel]
  | .cand j => [(c.cn[j]?).elim "" nodeLabel]
  | .init _ => []

def refName : ItemRef → List String
  | .init name => [name]
  | _ => []

def firstLabels (seen : List String) : List String → List String
  | [] => seen
  | l :: ls => firstLabels (if l ∈ seen then seen else seen ++ [l]) ls

/-- A unit of the changes `group`. Applying any change in a block swaps in every node of the block. -/
def buildUnit (index : Nat) (group : List Item) : ChangeUnit where
  index := index
  nodes := group.flatMap fun item => refLabel c item.ref
  initializers := group.flatMap fun item => refName item.ref
  blocks := firstLabels [] (group.filterMap fun item => item.key.map (blockLabel c))
  removed := (List.range c.bn.length).filter fun i =>
    group.any fun item => item.ref = .base i || item.key = some (.block (c.block i))
  added := (List.range c.cn.length).filter fun j =>
    group.any fun item => item.ref = .cand j ||
      (List.range c.bn.length).any fun i =>
        item.key = some (.block (c.block i)) && c.inverse.find? i = some j
  names := group.flatMap fun item => refName item.ref

def sortGroup (items : List Item) (group : List Nat) : List Item :=
  (group.insertionSort fun k l => positionAt items k ≤ positionAt items l).filterMap fun k => items[k]?

def buildUnits (items : List Item) : List ChangeUnit :=
  (orderedGroups items).zipIdx.map fun e => buildUnit c e.2 (sortGroup items e.1)

/-- Split the difference between the graphs into units in apply order. -/
def plan (digest : τ → Except VersionError δ) (base cand : Graph τ) (fusion : String) :
    Except VersionError (List ChangeUnit) := do
  let blockOf ← fusionBlocks base.nodes base.outputs fusion
  let names ← initDiff digest base cand
  let (matched, inverse) := matchNodes base.nodes cand.nodes
  let c : Comparison := ⟨base.nodes, cand.nodes, matched, inverse, blockOf⟩
  .ok (buildUnits c (c.items names))

end Onnxsim.Versioning.Planning

namespace Onnxsim.Versioning.States

open List Lib.Dicts Lib.OrderedMaps Lib.Kahn Graphs
open Planning

variable {τ : Type}

abbrev Pool := List (Nat × Node)

def addProducer (idx : Nat) (producers : Dict String Nat) (t : String) :
    Except VersionError (Dict String Nat) :=
  if t = "" then .ok producers
  else if (producers.get? t).isSome then .error (.producedTwice t)
  else .ok (producers.set t idx)

def poolProducers (producers : Dict String Nat) (idx : Nat) : Pool → Except VersionError (Dict String Nat)
  | [] => .ok producers
  | e :: rest => do
    let producers ← e.2.outputs.foldlM (addProducer idx) producers
    poolProducers producers (idx + 1) rest

def readDep (avail : List String) (producers : Dict String Nat) (node : Node) (t : String) :
    Except VersionError (List Nat) :=
  if t = "" ∨ t ∈ avail then .ok []
  else
    match producers.get? t with
    | none => .error (.nothingProduces (nodeLabel node) t)
    | some p => .ok [p]

def poolDeps (avail : List String) (producers : Dict String Nat) (pool : Pool) :
    Except VersionError (List (List Nat)) :=
  pool.mapM fun e => do
    let deps ← e.2.inputs.mapM (readDep avail producers e.2)
    .ok deps.flatten.dedup

/-- The dependencies as a problem for Kahn's algorithm; every one is a node of the pool. -/
def orderProblem (pool : Pool) (deps : List (List Nat)) : Problem where
  n := pool.length
  deps i := ((deps.getD i []).filter fun d => d < pool.length).dedup
  deps_nodup _ := nodup_dedup _
  deps_lt c d hd := by simpa using (mem_filter.mp (mem_dedup.mp hd)).2

/-- Order the pool so that every node comes after the producers of its inputs. -/
def topoOrder (pool : Pool) (avail outputs : List String) : Except VersionError (List Node) := do
  let producers ← poolProducers .empty 0 pool
  let deps ← poolDeps avail producers pool
  let order := kahn (orderProblem pool deps) fun i => (pool[i]?).elim 0 Prod.fst
  if order.length ≠ pool.length then .error .cycle
  else
    match outputs.find? fun o => o ∉ avail ∧ (producers.get? o).isNone with
    | some o => .error (.outputNotProduced o)
    | none => .ok (order.filterMap fun i => (pool[i]?).map Prod.snd)

/-- The initializers of a state once those named are the candidate's. -/
def applyNames (cand : SortedMap String τ) (inits : Dict String τ) (names : List String) : Dict String τ :=
  names.foldl (fun inits name =>
    match cand.find? name with
    | some t => inits.set name t
    | none => inits.erase name) inits

def stateInits (base cand : Graph τ) (units : List ChangeUnit) : Dict String τ :=
  units.foldl (fun inits u => applyNames (SortedMap.ofList cand.initializers) inits u.names)
    (Dict.empty.setAll base.initializers)

def statePool (base cand : Graph τ) (inverse : SortedMap Nat Nat) (units : List ChangeUnit) : Pool :=
  let removed := units.flatMap ChangeUnit.removed
  let added := units.flatMap ChangeUnit.added
  (base.nodes.zipIdx.filter fun e => e.2 ∉ removed).map (fun e =>
      ((inverse.find? e.2).getD (cand.nodes.length + e.2), e.1)) ++
    added.filterMap fun j => (cand.nodes[j]?).map fun n => (j, n)

/-- The base graph with the first `applied` units replaced by their candidate versions. -/
def state (base cand : Graph τ) (units : List ChangeUnit) (applied : Nat) (inverse : SortedMap Nat Nat) :
    Except VersionError (Graph τ) := do
  let applied := units.take applied
  let inits := stateInits base cand applied
  let pool := statePool base cand inverse applied
  let order ← topoOrder pool (base.inputs ++ inits.keys) base.outputs
  .ok ⟨order, inits.entries, base.inputs, base.outputs⟩

end Onnxsim.Versioning.States
