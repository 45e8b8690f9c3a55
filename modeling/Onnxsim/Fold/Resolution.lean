import Onnxsim.Fold.FoldConstant
import Onnxsim.Lib.Results

namespace Onnxsim.Fold.GraphFold

open Lib.Bisection Proto.Graphs Proto.Models
open Fold.Partition RunOps FoldConstant

/-- A graph of the in-memory representation, seen through its unique names: an unset input is the empty
name, the placeholder nodes are left out, and every value carries its type (element type 0 when it is
unknown, no shape when it has no sizes). -/
structure IRGraph where
  irVersion : Int
  opsetImport : List (String × Int)
  node : List Node
  initializer : List (String × Tensor)
  valueType : String → TensorType

/-- The bytes of a value, where its type and all its dimensions are known. -/
def bytesOnGraph (g : IRGraph) (output : String) : Option Nat :=
  match g.valueType output with
  | ⟨elemType, some dims⟩ =>
    if elemType = 0 then none
    else
      match sizeOfDtype elemType with
      | .ok size => if dims.all Option.isSome then some (dims.foldl mulDim size) else none
      | .error _ => none
  | ⟨_, none⟩ => none

def produceLargeTensorOnGraph (g : IRGraph) (n : Node) (threshold : Nat) : Bool :=
  if !largeTensorOps.contains n.opType then false
  else
    match n.output with
    | [] => true
    | o :: _ =>
      match bytesOnGraph g o with
      | some size => threshold < size
      | none => true

def estimateOutputBytesOnGraph (g : IRGraph) (n : Node) : Nat :=
  n.output.foldl (fun total o => (total + (bytesOnGraph g o).getD 0) % 2 ^ 64) 0

def getConstantNodesOnGraph (cfg : Config) (registry : Registry) (g : IRGraph) :
    Except String ConstantNodePartition :=
  g.node.foldlM
    (partitionStep registry g.opsetImport fun n =>
      .ok (produceLargeTensorOnGraph g n cfg.tensorSizeThreshold))
    (initialPartition cfg (g.initializer.map Prod.fst))

/-- The `NodeProto` of a graph node; its name is not carried over. -/
def anonymous : Node → Node
  | .mk _ domain opType input output attrs => .mk "" domain opType input output attrs

def opModelOnGraph (g : IRGraph) (st : SubModel) (ops : List Ref) : Model :=
  { irVersion := g.irVersion
    opsetImport := g.opsetImport
    node := st.node.map anonymous
    input := st.feeds.map fun f => tensorInfo f.1 f.2
    initializer := st.initializer
    output := outputNames ops
    valueInfo := [] }

def ownedOutputs (ops : List Ref) : List (Key × String) :=
  ops.flatMap fun r => r.2.output.map fun o => (r.1, o)

variable (executor : Executor) (g : IRGraph) (deferred : Producers)

/-- `RunOpsOnGraph`. A node of the batch is never looked up by name, its outputs being internal, so
the pointers in `const_nodes` can have keys of their own here too. -/
def runOpsOnGraph (constants : Producers) (initializer : List (String × Tensor)) (ops : List Ref) :
    Except String (List ((Key × String) × Tensor)) := do
  let st ← buildSubModel (scopeOf deferred constants initializer ops) ops
  let outputs ← executor (opModelOnGraph g st ops) (st.feeds.map Prod.snd)
  .ok ((ownedOutputs ops).zip outputs)

/-- `newConstantNodes` is in the order of creation; each one is put at the front of the graph. -/
structure GraphFoldState extends FoldState where
  destroyed : List Key := []
  numFolded : Nat := 0

/-- One round of the splicing loop. `remaining` counts the outputs of a node still to be replaced;
with the last one its entry in `constant_node_producers` goes and the node is destroyed. -/
def spliceOutput (impureOutputs : List String) (acc : GraphFoldState × (Key → Nat))
    (o : (Key × String) × Tensor) : GraphFoldState × (Key → Nat) :=
  let st : GraphFoldState :=
    { acc.1 with toFoldState := addOutput impureOutputs acc.1.toFoldState (o.1.2, o.2) }
  let remaining := Function.update acc.2 o.1.1 (acc.2 o.1.1 - 1)
  if remaining o.1.1 = 0 then
    ({ st with
        constants := st.constants.filter fun e => e.1 ≠ o.1.2
        destroyed := o.1.1 :: st.destroyed }, remaining)
  else (st, remaining)

def outputCount (ops : List Ref) (key : Key) : Nat :=
  match ops.find? (fun r => r.1 = key) with
  | some r => r.2.output.length
  | none => 0

variable (impureOutputs : List String)

def runGroupOnGraph (ops : List Ref) (st : GraphFoldState) : Except String GraphFoldState := do
  let outputs ← runOpsOnGraph executor g deferred st.constants st.initializer ops
  let st := (outputs.foldl (spliceOutput impureOutputs) (st, outputCount ops)).1
  .ok { st with
    foldedOutputs := st.foldedOutputs ++ outputs.map fun o => o.1.2
    numFolded := st.numFolded + ops.length }

def foldGroupOnGraph (ops : List Ref) (st : GraphFoldState) : GraphFoldState :=
  bisect (runGroupOnGraph executor g deferred impureOutputs) ops.length ops st

def deferredProducersOnGraph (g : IRGraph) (p : ConstantNodePartition) : Producers :=
  producersOf (keyed .model g.node) fun _ o => p.deferredOutputs.contains o

def constantNodeProducersOnGraph (g : IRGraph) : Producers :=
  producersOf (keyed .model g.node) fun n _ => isConstantOp n

def graphBatches (g : IRGraph) (p : ConstantNodePartition) : List (List Ref) :=
  batches (nextBatch (estimateOutputBytesOnGraph g) p.deferredOutputs) p.constNodes.length
    (keyed .const p.constNodes)

def foldAllOnGraph (executor : Executor) (g : IRGraph) (p : ConstantNodePartition) : GraphFoldState :=
  (graphBatches g p).foldl
    (fun st batch =>
      foldGroupOnGraph executor g (deferredProducersOnGraph g p) p.impureOutputs batch st)
    { initializer := g.initializer, constants := constantNodeProducersOnGraph g }

/-- Whether anything was folded, and what folding has done to the graph. -/
def foldConstantOnGraph (cfg : Config) (registry : Registry) (executor : Executor) (g : IRGraph) :
    Except String (Bool × GraphFoldState) := do
  let p ← getConstantNodesOnGraph cfg registry g
  let st := foldAllOnGraph executor g p
  .ok (0 < st.numFolded, st)

end Onnxsim.Fold.GraphFold

namespace Onnxsim.Fold.Resolution

open List Lib.Results Proto.Graphs Proto.Models
open Fold.Partition RunOps FoldConstant GraphFold

/-- A name that the sub-model neither computes nor leaves out. -/
def Looked (sc : Scope) (y : String) : Prop := y ≠ "" ∧ y ∉ sc.internalOutputs

def producer (sc : Scope) (y : String) : Option Ref := (sc.deferred.lookup y).or (sc.constants.lookup y)

/-- A node can be run with everything that is inlined for it: `ev` holds of all these nodes and every
other name is an initializer. -/
inductive Ready (ev : Node → Prop) (sc : Scope) : Node → Prop
  | intro {n : Node} (hev : ev n)
      (hnode : ∀ y ∈ n.input, Looked sc y → ∀ r, producer sc y = some r → Ready ev sc r.2)
      (hinit : ∀ y ∈ n.input, Looked sc y → producer sc y = none →
        ∃ t, sc.initializer.lookup y = some t) : Ready ev sc n

variable {visit : Ref → SubModel → Except String SubModel} {y : String} {r : Ref} {fuel k : Nat}

theorem includeInput_of_producer {sc : Scope} (hy : Looked sc y) (hr : producer sc y = some r) (st : SubModel) :
    includeInput visit sc st y = visit r st := by
  rw [includeInput, if_neg hy.1, if_neg (by simpa using hy.2)]
  cases hd : sc.deferred.lookup y with
  | some d =>
    have hdr : d = r := by simpa [producer, hd] using hr
    rw [← hdr]
  | none =>
    have hc : sc.constants.lookup y = some r := by simpa [producer, hd] using hr
    rw [hc]

theorem includeInput_of_none {sc : Scope} (hy : Looked sc y) (hr : producer sc y = none) (st : SubModel) :
    includeInput visit sc st y = addInput sc st y := by
  obtain ⟨hd, hc⟩ := Option.or_eq_none_iff.mp hr
  rw [includeInput, if_neg hy.1, if_neg (by simpa using hy.2), hd, hc]

theorem includeInput_of_not_looked {sc : Scope} (hy : ¬ Looked sc y) (st : SubModel) :
    includeInput visit sc st y = .ok st := by
  rw [includeInput]
  by_cases hempty : y = ""
  · rw [if_pos hempty]
  · have hint : y ∈ sc.internalOutputs := by
      by_contra hnot
      exact hy ⟨hempty, hnot⟩
    rw [if_neg hempty, if_pos (by simpa using hint)]

/-- What the construction of a sub-model has put into it so far can be run. -/
def Runnable (ev : Node → Prop) (sc : Scope) (st : SubModel) : Prop :=
  (∀ n ∈ st.node, ev n) ∧ ∀ f ∈ st.feeds, sc.initializer.lookup f.1 = some f.2

theorem addInput_ok {ev : Node → Prop} {sc : Scope} {st : SubModel} {t : Tensor}
    (ht : sc.initializer.lookup y = some t) (h : Runnable ev sc st) :
    ∃ st', addInput sc st y = .ok st' ∧ Runnable ev sc st' := by
  rw [addInput]
  split
  · exact ⟨st, rfl, h⟩
  · rw [findInitializerByName, ht]
    by_cases hz : t.dims = [0]
    · refine ⟨_, if_pos hz, h⟩
    · refine ⟨_, if_neg hz, h.1, fun f hf => ?_⟩
      rcases mem_append.mp hf with hf | hf
      · exact h.2 f hf
      · rw [mem_singleton.mp hf]
        exact ht

variable {ev : Node → Prop} {sc : Scope} (Within : Nat → Node → Prop)

theorem includeNode_ok
    (hwithin : ∀ k n, Within k n → ∀ y ∈ n.input, Looked sc y → ∀ r, producer sc y = some r → ∃ j < k, Within j r.2)
    (hr : Within k r.2) (hfuel : k < fuel) (hready : Ready ev sc r.2) {st : SubModel} (h : Runnable ev sc st) :
    ∃ st', includeNode sc fuel r st = .ok st' ∧ Runnable ev sc st' := by
  induction fuel generalizing r st k with
  | zero => cases hfuel
  | succ fuel ih =>
    rw [includeNode]
    split
    · exact ⟨st, rfl, h⟩
    obtain ⟨hev, hnode, hinit⟩ := hready
    have hloop := foldlM_ok (f := includeInput (includeNode sc fuel) sc) (P := Runnable ev sc)
      (l := r.2.input) (fun y hy s hs => by
        by_cases hlook : Looked sc y
        · cases hprod : producer sc y with
          | some r' =>
            obtain ⟨j, hj, hr'⟩ := hwithin k r.2 hr y hy hlook r' hprod
            rw [includeInput_of_producer hlook hprod]
            exact ih hr' (by omega) (hnode y hy hlook r' hprod) hs
          | none =>
            obtain ⟨t, ht⟩ := hinit y hy hlook hprod
            rw [includeInput_of_none hlook hprod]
            exact addInput_ok ht hs
        · rw [includeInput_of_not_looked hlook]
          exact ⟨s, rfl, hs⟩)
      (s := { st with included := r.1 :: st.included }) h
    obtain ⟨st₁, hst₁, hrun⟩ := hloop
    refine ⟨{ st₁ with node := st₁.node ++ [r.2] }, by rw [hst₁]; rfl, fun n hn => ?_, hrun.2⟩
    rcases mem_append.mp hn with hn | hn
    · exact hrun.1 n hn
    · rw [mem_singleton.mp hn]
      exact hev

/-- What the loop over a node's inputs does for one of them. -/
def SettledInput (sc : Scope) (st : SubModel) (y : String) : Prop :=
  Looked sc y → (∀ r, producer sc y = some r → r.1 ∈ st.included) ∧
    (producer sc y = none → ∃ t, sc.initializer.lookup y = some t)

/-- Every node in the sub-model has its inputs settled; the pointers on `stack` have been entered and
not yet emitted. -/
structure Settled (sc : Scope) (nodeOf : Key → Option Node) (st : SubModel) (stack : List Key) :
    Prop where
  input : ∀ n ∈ st.node, ∀ y ∈ n.input, SettledInput sc st y
  seen : ∀ y ∈ st.seenInputs, ∃ t, sc.initializer.lookup y = some t
  emitted : ∀ k ∈ st.included, k ∈ stack ∨ ∃ n ∈ st.node, nodeOf k = some n

theorem SettledInput.mono {sc : Scope} {st st' : SubModel} (h : SettledInput sc st y)
    (hinc : ∀ k ∈ st.included, k ∈ st'.included) : SettledInput sc st' y :=
  fun hy => ⟨fun r hr => hinc r.1 ((h hy).1 r hr), (h hy).2⟩

variable {nodeOf : Key → Option Node} {st st' : SubModel} {stack : List Key}

theorem addInput_settled (hs : Settled sc nodeOf st stack) (h : addInput sc st y = .ok st') :
    Settled sc nodeOf st' stack ∧ st.included = st'.included ∧
      ∃ t, sc.initializer.lookup y = some t := by
  rw [addInput] at h
  split at h
  · next hmem =>
    cases h
    exact ⟨hs, rfl, hs.seen y (by simpa using hmem)⟩
  obtain ⟨t, ht, h⟩ := bind_eq_ok h
  have hlookup : sc.initializer.lookup y = some t := by
    rw [findInitializerByName] at ht
    split at ht
    · next u hu =>
      cases ht
      exact hu
    · cases ht
  have hseen : ∀ z ∈ y :: st.seenInputs, ∃ t, sc.initializer.lookup z = some t := by
    intro z hz
    rcases mem_cons.mp hz with rfl | hz
    · exact ⟨t, hlookup⟩
    · exact hs.seen z hz
  split at h
  · cases h
    exact ⟨⟨hs.input, hseen, hs.emitted⟩, rfl, t, hlookup⟩
  · cases h
    exact ⟨⟨hs.input, hseen, hs.emitted⟩, rfl, t, hlookup⟩

theorem includeInput_settled (hvisit : ∀ r, producer sc y = some r → visit r st = .ok st' →
      Settled sc nodeOf st' stack ∧ (∀ k ∈ st.included, k ∈ st'.included) ∧ r.1 ∈ st'.included)
    (hs : Settled sc nodeOf st stack) (h : includeInput visit sc st y = .ok st') :
    Settled sc nodeOf st' stack ∧ (∀ k ∈ st.included, k ∈ st'.included) ∧ SettledInput sc st' y := by
  by_cases hlook : Looked sc y
  · cases hprod : producer sc y with
    | some r =>
      rw [includeInput_of_producer hlook hprod] at h
      obtain ⟨hs', hinc, hr⟩ := hvisit r hprod h
      refine ⟨hs', hinc, fun _ => ⟨fun r' hr' => ?_, fun hnone => ?_⟩⟩
      · rw [hprod] at hr'
        exact Option.some.inj hr' ▸ hr
      · rw [hprod] at hnone
        cases hnone
    | none =>
      rw [includeInput_of_none hlook hprod] at h
      obtain ⟨hs', hinc, ht⟩ := addInput_settled hs h
      refine ⟨hs', fun k hk => hinc ▸ hk, fun _ => ⟨fun r' hr' => ?_, fun _ => ht⟩⟩
      rw [hprod] at hr'
      cases hr'
  · rw [includeInput_of_not_looked hlook] at h
    cases h
    exact ⟨hs, fun _ hk => hk, fun hy => absurd hy hlook⟩

theorem includeNode_settled (hkeys : ∀ y r, producer sc y = some r → nodeOf r.1 = some r.2)
    (hr : nodeOf r.1 = some r.2) (hs : Settled sc nodeOf st stack) (h : includeNode sc fuel r st = .ok st') :
    Settled sc nodeOf st' stack ∧ (∀ k ∈ st.included, k ∈ st'.included) ∧ r.1 ∈ st'.included := by
  induction fuel generalizing r st st' stack with
  | zero => cases h
  | succ fuel ih =>
    rw [includeNode] at h
    split at h
    · next hmem =>
      cases h
      exact ⟨hs, fun _ hk => hk, by simpa using hmem⟩
    obtain ⟨st₁, hst₁, h⟩ := bind_eq_ok h
    cases h
    have henter : Settled sc nodeOf { st with included := r.1 :: st.included } (r.1 :: stack) := by
      refine ⟨fun n hn y hy => (hs.input n hn y hy).mono fun k hk => mem_cons_of_mem _ hk, hs.seen,
        fun k hk => ?_⟩
      rcases mem_cons.mp hk with rfl | hk
      · exact .inl mem_cons_self
      · exact (hs.emitted k hk).imp_left (mem_cons_of_mem _)
    obtain ⟨hs₁, hinc₁, hin₁⟩ := foldlM_induct
      (I := fun rest s => Settled sc nodeOf s (r.1 :: stack) ∧
        (∀ k ∈ r.1 :: st.included, k ∈ s.included) ∧
        ∀ y ∈ r.2.input, y ∈ rest ∨ SettledInput sc s y)
      (fun y rest s s' hI hs' => by
        obtain ⟨hs, hinc, hin⟩ := hI
        obtain ⟨hset, hinc', hy⟩ := includeInput_settled
          (fun r' hr' hv => ih (hkeys y r' hr') hs hv) hs hs'
        refine ⟨hset, fun k hk => hinc' k (hinc k hk), fun z hz => ?_⟩
        rcases hin z hz with hz' | hz'
        · rcases mem_cons.mp hz' with rfl | hz'
          · exact .inr hy
          · exact .inl hz'
        · exact .inr (hz'.mono hinc'))
      ⟨henter, fun _ hk => hk, fun y hy => .inl hy⟩ hst₁
    refine ⟨⟨fun n hn y hy => ?_, hs₁.seen, fun k hk => ?_⟩,
      fun k hk => hinc₁ k (mem_cons_of_mem _ hk), hinc₁ r.1 mem_cons_self⟩
    · rcases mem_append.mp hn with hn | hn
      · exact hs₁.input n hn y hy
      · rw [mem_singleton.mp hn] at hy
        exact (hin₁ y hy).resolve_left (by simp)
    · have hmono : ∀ n ∈ st₁.node, n ∈ st₁.node ++ [r.2] := fun n hn => mem_append_left _ hn
      rcases hs₁.emitted k hk with hstack | ⟨n, hn, hkn⟩
      · rcases mem_cons.mp hstack with rfl | hstack
        · exact .inr ⟨r.2, by simp, hr⟩
        · exact .inl hstack
      · exact .inr ⟨n, hmono n hn, hkn⟩

theorem ready_of_settled {nodeOf : Key → Option Node} {st : SubModel}
    (hkeys : ∀ y r, producer sc y = some r → nodeOf r.1 = some r.2)
    (hwithin : ∀ k n, Within k n → ∀ y ∈ n.input, Looked sc y → ∀ r, producer sc y = some r → ∃ j < k, Within j r.2)
    (hs : Settled sc nodeOf st []) (hev : ∀ n ∈ st.node, ev n) {n : Node} (hn : n ∈ st.node) (hk : Within k n) :
    Ready ev sc n := by
  induction k using Nat.strong_induction_on generalizing n with
  | _ k ih =>
    refine .intro (hev n hn) (fun y hy hlook r hr => ?_) (fun y hy hlook hnone => ?_)
    · obtain ⟨j, hj, hrj⟩ := hwithin k n hk y hy hlook r hr
      have hinc := (hs.input n hn y hy hlook).1 r hr
      obtain ⟨a, ha, hkey⟩ := (hs.emitted r.1 hinc).resolve_left (by simp)
      rw [hkeys y r hr] at hkey
      obtain rfl := Option.some.inj hkey
      exact ih j hj ha hrj
    · exact (hs.input n hn y hy hlook).2 hnone

end Onnxsim.Fold.Resolution

namespace Onnxsim.Fold.RunOpsExact

open List Lib.Results Proto.Graphs Proto.Models
open Fold.Partition RunOps FoldConstant GraphFold
open Resolution

/-- An executor that runs a sub-model exactly if it can evaluate each of its nodes. What it can
evaluate does not depend on a node's name, and it can evaluate a Constant that holds a tensor. -/
structure Exact (ev : Node → Prop) (executor : Executor) : Prop where
  runs_iff : ∀ sub feeds, (∃ outs, executor sub feeds = .ok outs) ↔ ∀ n ∈ sub.node, ev n
  length : ∀ sub feeds outs, executor sub feeds = .ok outs → outs.length = sub.output.length
  name : ∀ n, ev (anonymous n) ↔ ev n
  constant : ∀ name t, ev (makeConstantNode name t)

/-- The pointers of a scope and of a batch: they name nodes, and producers descend. -/
structure Shape (Within : Nat → Node → Prop) (nodeOf : Key → Option Node) (sc : Scope)
    (ops : List Ref) : Prop where
  keys : ∀ y r, producer sc y = some r → nodeOf r.1 = some r.2
  within : ∀ k n, Within k n → ∀ y ∈ n.input, Looked sc y → ∀ r, producer sc y = some r →
    ∃ j < k, Within j r.2
  ops : ∀ r ∈ ops, nodeOf r.1 = some r.2 ∧ ∃ k < includeFuel sc, Within k r.2

variable {ev : Node → Prop} {Within : Nat → Node → Prop} {nodeOf : Key → Option Node} {sc : Scope}
  {ops : List Ref}

theorem buildSubModel_ok (hshape : Shape Within nodeOf sc ops) (h : ∀ r ∈ ops, Ready ev sc r.2) :
    ∃ st, buildSubModel sc ops = .ok st ∧ Runnable ev sc st := by
  refine foldlM_ok (fun r hr s hs => ?_) ⟨by simp, by simp⟩
  obtain ⟨-, k, hk, hwithin⟩ := hshape.ops r hr
  exact includeNode_ok Within hshape.within hwithin hk (h r hr) hs

theorem ready_of_buildSubModel (hshape : Shape Within nodeOf sc ops) {st : SubModel}
    (h : buildSubModel sc ops = .ok st) (hev : ∀ n ∈ st.node, ev n) : ∀ r ∈ ops, Ready ev sc r.2 := by
  obtain ⟨-, hs, hinc⟩ := foldlM_induct
    (I := fun rest s => (∀ r ∈ rest, r ∈ ops) ∧ Settled sc nodeOf s [] ∧
      ∀ r ∈ ops, r ∈ rest ∨ r.1 ∈ s.included)
    (fun r rest s s' hI hs' => by
      obtain ⟨hrest, hs, hin⟩ := hI
      obtain ⟨hset, hinc, hr⟩ := includeNode_settled hshape.keys
        (hshape.ops r (hrest r mem_cons_self)).1 hs hs'
      refine ⟨fun a ha => hrest a (mem_cons_of_mem _ ha), hset, fun a ha => ?_⟩
      rcases hin a ha with ha' | ha'
      · rcases mem_cons.mp ha' with rfl | ha'
        · exact .inr hr
        · exact .inl ha'
      · exact .inr (hinc a.1 ha'))
    ⟨fun _ hr => hr, ⟨by simp, by simp, by simp⟩, fun r hr => .inl hr⟩ h
  intro r hr
  obtain ⟨hkey, k, -, hwithin⟩ := hshape.ops r hr
  obtain ⟨n, hn, hkn⟩ := (hs.emitted r.1 ((hinc r hr).resolve_left (by simp))).resolve_left (by simp)
  rw [hkey] at hkn
  obtain rfl := Option.some.inj hkn
  exact ready_of_settled Within hshape.keys hshape.within hs hev hn hwithin

theorem findValueInfo_ok {m : Model} {initializer : List (String × Tensor)} {y : String} {t : Tensor}
    (h : initializer.lookup y = some t) :
    ∃ vi, findValueInfoProtoByName m initializer y = .ok vi := by
  rw [findValueInfoProtoByName]
  split
  · exact ⟨_, rfl⟩
  · rw [h]
    exact ⟨_, rfl⟩

variable {executor : Executor} {deferred constants : Producers} {initializer : List (String × Tensor)}

theorem runOps_ok_iff (hexec : Exact ev executor) (m : Model)
    (hshape : Shape Within nodeOf (scopeOf deferred constants initializer ops) ops) :
    (∃ outs, runOps m deferred executor constants initializer ops = .ok outs) ↔
      ∀ r ∈ ops, Ready ev (scopeOf deferred constants initializer ops) r.2 := by
  constructor
  · rintro ⟨outs, h⟩
    obtain ⟨st, hst, h⟩ := bind_eq_ok h
    obtain ⟨input, -, h⟩ := bind_eq_ok h
    obtain ⟨tensors, ht, -⟩ := bind_eq_ok h
    exact ready_of_buildSubModel hshape hst ((hexec.runs_iff _ _).mp ⟨tensors, ht⟩)
  · intro h
    obtain ⟨st, hst, hrun, hfeeds⟩ := buildSubModel_ok hshape h
    obtain ⟨input, hinput⟩ := mapM_ok (l := st.feeds)
      (f := fun f => findValueInfoProtoByName m initializer f.1)
      fun f hf => findValueInfo_ok (hfeeds f hf)
    obtain ⟨tensors, ht⟩ := (hexec.runs_iff (opModel m st input ops) (st.feeds.map Prod.snd)).mpr hrun
    refine ⟨nameOutputs (outputNames ops) tensors, ?_⟩
    rw [runOps, ok_bind hst, ok_bind hinput, ok_bind ht]

theorem runOpsOnGraph_outputs (hexec : Exact ev executor) {g : IRGraph}
    {outs : List ((Key × String) × Tensor)}
    (h : runOpsOnGraph executor g deferred constants initializer ops = .ok outs) :
    ∃ tensors : List Tensor, tensors.length = (outputNames ops).length ∧
      outs = (ownedOutputs ops).zip tensors := by
  obtain ⟨st, -, h⟩ := bind_eq_ok h
  obtain ⟨tensors, ht, h⟩ := bind_eq_ok h
  cases h
  exact ⟨tensors, hexec.length _ _ _ ht, rfl⟩

theorem runOpsOnGraph_ok_iff (hexec : Exact ev executor) (g : IRGraph)
    (hshape : Shape Within nodeOf (scopeOf deferred constants initializer ops) ops) :
    (∃ outs, runOpsOnGraph executor g deferred constants initializer ops = .ok outs) ↔
      ∀ r ∈ ops, Ready ev (scopeOf deferred constants initializer ops) r.2 := by
  have hnames : ∀ st : SubModel, (∀ n ∈ st.node.map anonymous, ev n) ↔ ∀ n ∈ st.node, ev n := by
    intro st
    simp only [List.forall_mem_map, hexec.name]
  constructor
  · rintro ⟨outs, h⟩
    obtain ⟨st, hst, h⟩ := bind_eq_ok h
    obtain ⟨tensors, ht, -⟩ := bind_eq_ok h
    exact ready_of_buildSubModel hshape hst ((hnames st).mp ((hexec.runs_iff _ _).mp ⟨tensors, ht⟩))
  · intro h
    obtain ⟨st, hst, hrun, -⟩ := buildSubModel_ok hshape h
    obtain ⟨tensors, ht⟩ := (hexec.runs_iff (opModelOnGraph g st ops) (st.feeds.map Prod.snd)).mpr
      ((hnames st).mpr hrun)
    refine ⟨(ownedOutputs ops).zip tensors, ?_⟩
    rw [runOpsOnGraph, ok_bind hst, ok_bind ht]

end Onnxsim.Fold.RunOpsExact
