import Onnxsim.Lib.NodeRuns
import Onnxsim.Passes.Gathers

namespace Onnxsim.Passes.ScalarOutputs

open List Option Lib Lib.NodeRuns
open Overflow.Arrays PartialShape.Reshaping
open Gathers (place)
open Reduce.Axes (reduceWith reduceWith_toggle reducedShape reducedShape_nil)
open Reduce.Fusion (Dimension)

variable {α : Type}

/-- A node with the values that it reads itself and those that its nested graphs read; values are numbers. What the
pass does not look at of the attributes is a text. -/
structure Node where
  domain : Option String
  kind : String
  keepdims : Option Int
  axes : Option (List Int)
  noopWithEmptyAxes : Option Int
  attributes : String
  inputs : List Nat
  captured : List Nat
  outputs : List Nat
deriving DecidableEq

/-- The nodes in the order of the graph. All values are below `next`. -/
structure Graph (α : Type) where
  opset : Int
  inputs : List Nat
  initializers : List (Nat × NDArray α)
  nodes : List Node
  outputs : List Nat
  sizes : Nat → Option (List Dimension)
  name : Nat → String
  next : Nat

def Node.reads (n : Node) : List Nat := n.inputs ++ n.captured

/-- Integers as elements of tensors. -/
structure Integers (α : Type) where
  toInt : α → Int
  ofInt : Int → α
  toInt_ofInt : ∀ i, toInt (ofInt i) = i

/-- A supply of names that no value of the graph has. -/
structure Namer (α : Type) where
  uniqueName : Graph α → String
  unique : ∀ (g : Graph α) v, v < g.next → uniqueName g ≠ g.name v

def isHandledReduceKind (kind : String) : Bool :=
  kind ∈ ["ReduceMean", "ReduceSum", "ReduceMax", "ReduceMin", "ReduceProd"]

def named (n : Node) : Bool := n.axes.isSome || decide (1 < n.inputs.length)

/-- The number of axes that are spelled out for a reduction, if they are. -/
def spelledRank (sizes : Nat → Option (List Dimension)) (n : Node) : Option Nat :=
  if named n then none
  else (n.inputs.head?.bind sizes).bind fun ds => if ds.length = 0 then none else some ds.length

def allAxes (rank : Nat) : List Int := (List.range rank).map fun i : Nat => (i : Int)

def ints (Z : Integers α) (l : List Int) : NDArray α := ⟨[l.length], l.map Z.ofInt, by simp⟩

def isEdited (v : Nat) (n : Node) : Bool :=
  decide (v ∈ n.outputs) && isHandledReduceKind n.kind && !n.inputs.isEmpty

/-- The producer of `v`, after the edit; `next` is the value of the axes where these are an input. -/
def editNode (g : Graph α) (v : Nat) (n : Node) : Node :=
  if isEdited v n then
    match spelledRank g.sizes n with
    | none => { n with keepdims := some 1 }
    | some r =>
      if 18 ≤ g.opset then { n with keepdims := some 1, inputs := n.inputs ++ [g.next] }
      else { n with keepdims := some 1, axes := some (allAxes r) }
  else n

def newAxes (Z : Integers α) (g : Graph α) (v : Nat) : List (Nat × NDArray α) :=
  match (g.nodes.find? (isEdited v)).bind (spelledRank g.sizes) with
  | some r => if 18 ≤ g.opset then [(g.next, ints Z (allAxes r))] else []
  | none => []

def editProducer (Z : Integers α) (g : Graph α) (v : Nat) : Graph α :=
  { g with
    nodes := g.nodes.map (editNode g v)
    initializers := g.initializers ++ newAxes Z g v
    next := g.next + 1 }

def redirect (v out u : Nat) : Nat := if u = v then out else u

def Node.redirect (v out : Nat) (n : Node) : Node :=
  { n with
    inputs := n.inputs.map (ScalarOutputs.redirect v out)
    captured := n.captured.map (ScalarOutputs.redirect v out) }

def reshapeNode (v target out : Nat) : Node :=
  { domain := none, kind := "Reshape", keepdims := none, axes := none, noopWithEmptyAxes := none, attributes := ""
    inputs := [v, target], captured := [], outputs := [out] }

/-- The value gets a name of its own, and every use that it had is of the Reshape at the end. -/
def appendReshape (Z : Integers α) (namer : Namer α) (g : Graph α) (v : Nat) : Graph α :=
  { g with
    nodes := g.nodes.map (Node.redirect v (g.next + 1)) ++ [reshapeNode v g.next (g.next + 1)]
    outputs := g.outputs.map (redirect v (g.next + 1))
    initializers := g.initializers ++ [(g.next, ints Z [1])]
    sizes := Function.update g.sizes (g.next + 1) (some [.size 1])
    name := Function.update (Function.update g.name v (namer.uniqueName g)) (g.next + 1) (g.name v)
    next := g.next + 2 }

def handleOutput (Z : Integers α) (namer : Namer α) (g : Graph α) (v : Nat) : Graph α :=
  if g.sizes v = some [] then appendReshape Z namer (editProducer Z g v) v else g

def runPass (Z : Integers α) (namer : Namer α) (g : Graph α) : Graph α :=
  g.outputs.foldl (handleOutput Z namer) g

/-- What the operators compute: a reduction of the five kinds as the standard defines it, and any other one from its
operands and the values that its nested graphs read. -/
structure Meaning (α : Type) extends Integers α where
  reduction : String → List α → α
  other : Node → List (Option (NDArray α)) → List (Option (NDArray α)) → Option (List (NDArray α))

def axesMask (rank : Nat) (axes : List Int) : Option (List Bool) :=
  (axes.mapM (place rank)).map fun ks => (List.range rank).map fun i => decide (i ∈ ks)

/-- The axes that are spelled out, as an attribute or as the second operand; an empty list spells out none. -/
def spelled (Z : Integers α) (n : Node) (operand : Option (NDArray α)) : Option (List Int) :=
  (n.axes.or (operand.map fun a => a.data.map Z.toInt)).filter fun axes => !axes.isEmpty

def evalReduce (M : Meaning α) (n : Node) : List (Option (NDArray α)) → Option (NDArray α)
  | some x :: rest =>
    let keep := decide (n.keepdims.getD 1 ≠ 0)
    match spelled M.toIntegers n (rest.headD none) with
    | some axes => (axesMask x.shape.length axes).map fun mask => reduceWith (M.reduction n.kind) keep mask x
    | none =>
      if n.noopWithEmptyAxes.getD 0 ≠ 0 then some x
      else some (reduceWith (M.reduction n.kind) keep (List.replicate x.shape.length true) x)
  | _ => none

def evalReshape (M : Meaning α) : List (Option (NDArray α)) → Option (NDArray α)
  | [some x, some target] =>
    (targetDims false x.shape (target.data.map M.toInt)).bind fun s =>
      if h : x.data.length = s.prod then some ⟨s, x.data, h⟩ else none
  | _ => none

def evalNode (M : Meaning α) (n : Node) (ins caps : List (Option (NDArray α))) : Option (List (NDArray α)) :=
  if n.domain.getD "" = "" ∧ isHandledReduceKind n.kind then (evalReduce M n ins).map fun y => [y]
  else if n.domain.getD "" = "" ∧ n.kind = "Reshape" ∧ n.attributes = "" ∧ n.inputs.length = 2 then
    (evalReshape M ins).map fun y => [y]
  else M.other n ins caps

def behaviour (M : Meaning α) : Behaviour Node Nat (NDArray α) where
  reads := Node.reads
  writes := Node.outputs
  eval n vs := evalNode M n (vs.take n.inputs.length) (vs.drop n.inputs.length)

/-- Inputs are fed by name; an initializer is the default of an input. -/
def Graph.start (g : Graph α) (feed : String → Option (NDArray α)) : Env Nat (NDArray α) := fun v =>
  if v ∈ g.inputs then (feed (g.name v)).or (g.initializers.lookup v) else g.initializers.lookup v

def Graph.run (M : Meaning α) (g : Graph α) (feed : String → Option (NDArray α)) : Option (Env Nat (NDArray α)) :=
  NodeRuns.run (behaviour M) g.nodes (g.start feed)

def axesAreInput (kind : String) (opset : Int) : Prop := if kind = "ReduceSum" then 13 ≤ opset else 18 ≤ opset

/-- The forms that the operators which the pass edits or adds have in an opset. -/
def Valid (opset : Int) (n : Node) : Prop :=
  if n.kind = "Reshape" then 5 ≤ opset
  else n.domain.getD "" = "" ∧ (axesAreInput n.kind opset → n.axes = none) ∧
    (¬ axesAreInput n.kind opset → n.inputs.length ≤ 1)

/-- The operator is spelled the same. -/
structure SameForm (n n' : Node) : Prop where
  domain : n'.domain = n.domain
  kind : n'.kind = n.kind
  keepdims : n'.keepdims = n.keepdims
  axes : n'.axes = n.axes
  inputs : n'.inputs.length = n.inputs.length

/-- The ranks that are recorded of the outputs and of the operands of reductions hold in a run. -/
def Graph.RanksHold (g : Graph α) (env : Env Nat (NDArray α)) : Prop :=
  ∀ v t ds, (v ∈ g.outputs ∨ ∃ n ∈ g.nodes, isHandledReduceKind n.kind ∧ n.inputs.head? = some v) →
    env v = some t → g.sizes v = some ds → t.shape.length = ds.length

/-- An output of rank 0 is a vector with the one element afterwards, and any other one is the same. -/
def Corresponds (sizes : Nat → Option (List Dimension)) (env env' : Env Nat (NDArray α)) (o o' : Nat) : Prop :=
  if sizes o = some [] then ∃ x, env o = some ⟨[], [x], rfl⟩ ∧ env' o' = some ⟨[1], [x], rfl⟩ else env' o' = env o

/-- The graph is executable as before, and changes in the rank of its scalar outputs only. -/
structure Kept (M : Meaning α) (g g' : Graph α) : Prop where
  ordered : Ordered Node.reads Node.outputs g'.nodes
  inputs : g'.inputs.map g'.name = g.inputs.map g.name
  outputs : g'.outputs.map g'.name = g.outputs.map g.name
  sizes : List.Forall₂ (fun o o' => g'.sizes o' = if g.sizes o = some [] then some [.size 1] else g.sizes o)
    g.outputs g'.outputs
  edited : ∀ (k : Nat) n n', g.nodes[k]? = some n → g'.nodes[k]? = some n' → SameForm n n' ∨ Valid g.opset n'
  added : ∀ k n', g.nodes.length ≤ k → g'.nodes[k]? = some n' → Valid g.opset n'
  values : ∀ feed env, g.run M feed = some env → g.RanksHold env →
    ∃ env', g'.run M feed = some env' ∧ List.Forall₂ (Corresponds g.sizes env env') g.outputs g'.outputs

/-- A valid graph: the nodes come after those that make what they read, and every value is made once. -/
structure Graph.WellFormed (g : Graph α) : Prop where
  ordered : Ordered Node.reads Node.outputs g.nodes
  single : (g.nodes.flatMap Node.outputs).Nodup
  given : ∀ v, v ∈ g.inputs ∨ (∃ t, (v, t) ∈ g.initializers) → v ∉ g.nodes.flatMap Node.outputs
  defined : ∀ v ∈ g.outputs, v ∈ g.inputs ∨ (∃ t, (v, t) ∈ g.initializers) ∨ v ∈ g.nodes.flatMap Node.outputs
  below : ∀ v, v ∈ g.inputs ∨ (∃ t, (v, t) ∈ g.initializers) ∨ v ∈ g.outputs ∨
    (∃ n ∈ g.nodes, v ∈ n.reads ∨ v ∈ n.outputs) → v < g.next
  reductions : ∀ n ∈ g.nodes, isHandledReduceKind n.kind → n.domain.getD "" = "" → Valid g.opset n

structure ScalarRun (α : Type) where
  graph : Graph α
  wellFormed : graph.WellFormed
  meaning : Meaning α
  namer : Namer α

def ScalarRun.Kept (r : ScalarRun α) : Prop :=
  ScalarOutputs.Kept r.meaning r.graph (runPass r.meaning.toIntegers r.namer r.graph)

/-- The reduction may be edited: it is one of the standard, unless nothing changes, and it is no ReduceSum without axes
of an opset in which they are an input but the attribute is set. -/
def Graph.Editable (g : Graph α) (n : Node) : Prop :=
  (n.domain.getD "" = "" ∨ n.keepdims = some 1 ∧ spelledRank g.sizes n = none) ∧
    ¬ (n.kind = "ReduceSum" ∧ 13 ≤ g.opset ∧ g.opset < 18 ∧ spelledRank g.sizes n ≠ none)

/-- A rank-0 output is listed once, no input of the graph and read by nothing else. -/
structure Graph.Ready (g : Graph α) (v : Nat) : Prop where
  opset : 5 ≤ g.opset
  fed : v ∉ g.inputs
  unread : ∀ n ∈ g.nodes, v ∉ n.reads
  editable : ∀ n ∈ g.nodes, isEdited v n → g.Editable n

def ScalarRun.Safe (r : ScalarRun α) : Prop :=
  ∀ v ∈ r.graph.outputs, r.graph.sizes v = some [] → r.graph.outputs.count v = 1 ∧ r.graph.Ready v

variable {sizes : Nat → Option (List Dimension)} {g : Graph α} {v out : Nat} {n : Node}

@[simp]
theorem redirect_outputs : (n.redirect v out).outputs = n.outputs := rfl

theorem redirect_reads : (n.redirect v out).reads = n.reads.map (redirect v out) := by
  rw [Node.reads, Node.reads, map_append]
  rfl

theorem redirect_of_notMem {l : List Nat} (h : v ∉ l) : l.map (redirect v out) = l := by
  have hid : l.map (redirect v out) = l.map id := by
    apply map_congr_left
    intro u hu
    refine if_neg ?_
    rintro rfl
    exact h hu
  rw [hid, List.map_id]

theorem redirect_of_unread (h : v ∉ n.reads) : n.redirect v out = n := by
  rw [Node.reads, mem_append, not_or] at h
  unfold Node.redirect
  rw [redirect_of_notMem h.1, redirect_of_notMem h.2]

theorem editNode_unedited (h : isEdited v n = false) : editNode g v n = n := by
  rw [editNode, h, if_neg Bool.false_ne_true]

theorem editNode_implicit (h : isEdited v n = true) (hs : spelledRank g.sizes n = none) :
    editNode g v n = { n with keepdims := some 1 } := by
  rw [editNode, if_pos h, hs]

variable {r x : Nat}

theorem editNode_input (h : isEdited v n = true) (hs : spelledRank g.sizes n = some r) (hopset : 18 ≤ g.opset) :
    editNode g v n = { n with keepdims := some 1, inputs := n.inputs ++ [g.next] } := by
  rw [editNode, if_pos h, hs]
  exact if_pos hopset

theorem editNode_attribute (h : isEdited v n = true) (hs : spelledRank g.sizes n = some r) (hopset : ¬ 18 ≤ g.opset) :
    editNode g v n = { n with keepdims := some 1, axes := some (allAxes r) } := by
  rw [editNode, if_pos h, hs]
  exact if_neg hopset

theorem editNode_cases (g : Graph α) (v : Nat) (n : Node) :
    (isEdited v n = false ∧ editNode g v n = n) ∨
      (isEdited v n = true ∧ spelledRank g.sizes n = none ∧ editNode g v n = { n with keepdims := some 1 }) ∨
      (∃ r, isEdited v n = true ∧ spelledRank g.sizes n = some r ∧ 18 ≤ g.opset ∧
        editNode g v n = { n with keepdims := some 1, inputs := n.inputs ++ [g.next] }) ∨
      ∃ r, isEdited v n = true ∧ spelledRank g.sizes n = some r ∧ ¬ 18 ≤ g.opset ∧
        editNode g v n = { n with keepdims := some 1, axes := some (allAxes r) } := by
  cases h : isEdited v n with
  | false => exact .inl ⟨rfl, editNode_unedited h⟩
  | true =>
    cases hs : spelledRank g.sizes n with
    | none => exact .inr (.inl ⟨rfl, rfl, editNode_implicit h hs⟩)
    | some r =>
      by_cases hopset : 18 ≤ g.opset
      · exact .inr (.inr (.inl ⟨r, rfl, rfl, hopset, editNode_input h hs hopset⟩))
      · exact .inr (.inr (.inr ⟨r, rfl, rfl, hopset, editNode_attribute h hs hopset⟩))

theorem editNode_kept : (editNode g v n).outputs = n.outputs ∧ (editNode g v n).kind = n.kind ∧
    (editNode g v n).domain = n.domain ∧ (editNode g v n).captured = n.captured := by
  obtain ⟨-, h⟩ | ⟨-, -, h⟩ | ⟨r, -, -, -, h⟩ | ⟨r, -, -, -, h⟩ := editNode_cases g v n
  all_goals rw [h]; exact ⟨rfl, rfl, rfl, rfl⟩

@[simp]
theorem editNode_outputs : (editNode g v n).outputs = n.outputs := editNode_kept.1

@[simp]
theorem editNode_kind : (editNode g v n).kind = n.kind := editNode_kept.2.1

@[simp]
theorem editNode_domain : (editNode g v n).domain = n.domain := editNode_kept.2.2.1

theorem editNode_captured : (editNode g v n).captured = n.captured := editNode_kept.2.2.2

theorem editNode_inputs : (editNode g v n).inputs = n.inputs ∨
    isEdited v n = true ∧ (editNode g v n).inputs = n.inputs ++ [g.next] := by
  obtain ⟨-, h⟩ | ⟨-, -, h⟩ | ⟨r, he, -, -, h⟩ | ⟨r, -, -, -, h⟩ := editNode_cases g v n
  · rw [h]; exact .inl rfl
  · rw [h]; exact .inl rfl
  · rw [h]; exact .inr ⟨he, rfl⟩
  · rw [h]; exact .inl rfl

theorem mem_reads_editNode (h : x ∈ n.reads) : x ∈ (editNode g v n).reads := by
  rw [Node.reads, mem_append] at h ⊢
  rw [editNode_captured]
  obtain hin | hcap := h
  · left
    obtain heq | ⟨-, heq⟩ := editNode_inputs (g := g) (v := v) (n := n)
    · rwa [heq]
    · rw [heq]
      exact mem_append_left _ hin
  · exact .inr hcap

theorem mem_reads_of_editNode (h : x ∈ (editNode g v n).reads) : x ∈ n.reads ∨ x = g.next := by
  rw [Node.reads, mem_append, editNode_captured] at h
  rw [Node.reads, mem_append]
  obtain hin | hcap := h
  · obtain heq | ⟨-, heq⟩ := editNode_inputs (g := g) (v := v) (n := n)
    · exact .inl (.inl (heq ▸ hin))
    · rw [heq] at hin
      obtain hin | hnext := mem_append.mp hin
      · exact .inl (.inl hin)
      · exact .inr (mem_singleton.mp hnext)
  · exact .inl (.inr hcap)

theorem isEdited_iff : isEdited v n = true ↔ v ∈ n.outputs ∧ isHandledReduceKind n.kind = true ∧ n.inputs ≠ [] := by
  simp [isEdited, and_assoc]

theorem kind_ne_reshape (h : isHandledReduceKind n.kind = true) : n.kind ≠ "Reshape" := by
  intro heq
  rw [heq] at h
  revert h
  decide

theorem spelledRank_eq_some : spelledRank sizes n = some r ↔
    named n = false ∧ r ≠ 0 ∧ ∃ x ds, n.inputs.head? = some x ∧ sizes x = some ds ∧ ds.length = r := by
  unfold spelledRank
  cases hnamed : named n with
  | true => simp
  | false =>
    simp only [Bool.false_eq_true, if_false, true_and, bind_eq_some_iff]
    constructor
    · rintro ⟨ds, ⟨x, hx, hds⟩, hr⟩
      split_ifs at hr with hzero
      obtain rfl := Option.some.inj hr
      exact ⟨hzero, x, ds, hx, hds, rfl⟩
    · rintro ⟨hr, x, ds, hx, hds, rfl⟩
      exact ⟨ds, ⟨x, hx, hds⟩, if_neg hr⟩

theorem spelledRank_congr {sizes' : Nat → Option (List Dimension)}
    (h : ∀ x, n.inputs.head? = some x → sizes' x = sizes x) : spelledRank sizes' n = spelledRank sizes n := by
  unfold spelledRank
  cases hhead : n.inputs.head? with
  | none => rfl
  | some x => rw [bind_some, bind_some, h x hhead]

theorem editNode_edited (h : isEdited v n = true) (hsizes : ∀ x, n.inputs.head? = some x → sizes x = g.sizes x) :
    (editNode g v n).keepdims = some 1 ∧ spelledRank sizes (editNode g v n) = none := by
  obtain ⟨hno, -⟩ | ⟨-, hs, heq⟩ | ⟨r, -, hs, -, heq⟩ | ⟨r, -, hs, -, heq⟩ := editNode_cases g v n
  · rw [h] at hno
    cases hno
  · rw [heq]
    exact ⟨rfl, (spelledRank_congr hsizes).trans hs⟩
  · rw [heq]
    have hpos := length_pos_iff.mpr (isEdited_iff.mp h).2.2
    have hnamed : named { n with keepdims := some 1, inputs := n.inputs ++ [g.next] } = true := by
      simp only [named, length_append, length_singleton, Bool.or_eq_true, decide_eq_true_eq]
      omega
    exact ⟨rfl, by rw [spelledRank, hnamed, if_pos rfl]⟩
  · rw [heq]
    have hnamed : named { n with keepdims := some 1, axes := some (allAxes r) } = true := rfl
    exact ⟨rfl, by rw [spelledRank, hnamed, if_pos rfl]⟩

end Onnxsim.Passes.ScalarOutputs
