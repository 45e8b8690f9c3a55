import Mathlib.Algebra.Group.Submonoid.Basic
import Onnxsim.Fold.SubModels
import Onnxsim.Lib.Dicts
import Onnxsim.Lib.FreshNames

namespace Onnxsim.Gradients.Backward

open Lib.Dicts Proto.Graphs

/-- What the gradient's nodes are appended to. Names are made with `namePrefix` and a counter. -/
structure GraphBuilder where
  nodes : List Node := []
  initializer : List (String × Tensor) := []
  namePrefix : String := ""
  counter : Nat := 0

namespace GraphBuilder

def nameAt (namePrefix hint : String) (counter : Nat) : String :=
  namePrefix ++ hint ++ "_" ++ toString counter

def name (b : GraphBuilder) (hint : String) : String × GraphBuilder :=
  (nameAt b.namePrefix hint (b.counter + 1), { b with counter := b.counter + 1 })

def op (b : GraphBuilder) (opType : String) (inputs : List String) : String × GraphBuilder :=
  let named := b.name opType.toLower
  (named.1, { named.2 with nodes := named.2.nodes ++ [.mk "" "" opType inputs [named.1] []] })

def add (b : GraphBuilder) (x y : String) : String × GraphBuilder := b.op "Add" [x, y]

end GraphBuilder

/-- What the rules may look at: the static shapes and the values of the Constant nodes. -/
structure Context where
  shapes : Dict String (List Int)
  constants : List (String × Tensor)

inductive BackwardError where
  | noRule (opType location : String)
  | outputs (opType : String) (count : Nat)
  | returned (opType : String) (gradients inputs : Nat)
  | rule (message : String)
  | unreachable (target : String) (seeds : List String)

/-- A gradient rule gets the gradient of each output, where there is one, and returns one of each input
it is not zero or undefined for. -/
abbrev MultiOutputRule := Context → Node → List (Option String) → GraphBuilder →
  Except BackwardError (GraphBuilder × List (Option String))

abbrev Rule := Context → Node → String → GraphBuilder →
  Except BackwardError (GraphBuilder × List (Option String))

structure RuleTables where
  rules : String → Option Rule
  multiOutputRules : String → Option MultiOutputRule

def constantValue (n : Node) : Option Tensor :=
  n.attrs.findSome? fun a =>
    match a with
    | .tensor "value" t => some t
    | _ => none

def addConstants (nodes : List Node) : List (String × Tensor) :=
  nodes.filterMap fun n =>
    match n.opType, n.output with
    | "Constant", o :: _ => (constantValue n).map fun t => (o, t)
    | _, _ => none

abbrev WalkState := GraphBuilder × Dict String String

/-- A tensor read by several nodes, or twice by one node, accumulates. -/
def accumulate : List (String × Option String) → WalkState → WalkState
  | [], st => st
  | (_, none) :: rest, st => accumulate rest st
  | (name, some contribution) :: rest, (b, grads) =>
    if name = "" then accumulate rest (b, grads)
    else
      match grads.get? name with
      | none => accumulate rest (b, grads.set name contribution)
      | some existing =>
        let sum := b.add existing contribution
        accumulate rest (sum.2, grads.set name sum.1)

variable (tables : RuleTables) (ctx : Context)

/-- The call of a node's rule, if a gradient has come to the node. -/
def callRule (n : Node) (st : WalkState) : Except BackwardError (Option (GraphBuilder × List (Option String))) :=
  match tables.multiOutputRules n.opType with
  | some rule =>
    let gs := n.output.map st.2.get?
    if gs.all Option.isNone then .ok none else (rule ctx n gs st.1).map some
  | none =>
    match tables.rules n.opType with
    | none => .error (.noRule n.opType (if n.name ≠ "" then n.name else n.output.headD ""))
    | some rule =>
      match n.output with
      | [o] =>
        match st.2.get? o with
        | none => .ok none
        | some g => (rule ctx n g st.1).map some
      | outputs => .error (.outputs n.opType outputs.length)

def visit (st : WalkState) (n : Node) : Except BackwardError WalkState :=
  if n.opType = "Constant" then .ok st
  else do
    match ← callRule tables ctx n st with
    | none => .ok st
    | some (b, contributions) =>
      if contributions.length = n.input.length then
        .ok (accumulate (n.input.zip contributions) (b, st.2))
      else .error (.returned n.opType contributions.length n.input.length)

def walk (nodes : List Node) (st : WalkState) : Except BackwardError WalkState :=
  nodes.reverse.foldlM (visit tables ctx) st

def collect (seeds grads : Dict String String) (targets : List String) :
    Except BackwardError (Dict String String) :=
  targets.foldlM (fun result target =>
    match grads.get? target with
    | none => .error (.unreachable target (seeds.keys.mergeSort fun x y => decide (x ≤ y)))
    | some g => .ok (result.set target g)) .empty

/-- `build_backward`. -/
def buildBackward (tables : RuleTables) (b : GraphBuilder) (nodes : List Node)
    (shapes : Dict String (List Int)) (gradOutputs : Dict String String) (targets : List String) :
    Except BackwardError (GraphBuilder × Dict String String) := do
  let (b, grads) ← walk tables ⟨shapes, addConstants nodes⟩ nodes (b, gradOutputs)
  let result ← collect gradOutputs grads targets
  .ok (b, result)

/-- `BuildBackwardImpl`, which has no rules for several outputs. -/
def buildBackwardImpl (rules : String → Option Rule) (b : GraphBuilder) (nodes : List Node)
    (shapes : Dict String (List Int)) (gradOutputs : Dict String String) (targets : List String) :
    Except BackwardError (GraphBuilder × Dict String String) :=
  buildBackward ⟨rules, fun _ => none⟩ b nodes shapes gradOutputs targets

end Onnxsim.Gradients.Backward

namespace Onnxsim.Gradients.Emission

open List Lib.Dataflow Lib.Dicts Proto.Graphs Fold.Semantics
open Lib.FreshNames Backward

theorem nameAt_injective {p hint hint' : String} {j k : Nat}
    (h : GraphBuilder.nameAt p hint j = GraphBuilder.nameAt p hint' k) : j = k := numbered_inj h

theorem add_name (b : GraphBuilder) (x y : String) :
    ∃ hint, (b.add x y).1 = GraphBuilder.nameAt b.namePrefix hint (b.counter + 1) := ⟨_, rfl⟩

theorem add_ne_empty (b : GraphBuilder) (x y : String) : (b.add x y).1 ≠ "" := by
  intro hempty
  obtain ⟨hint, hout⟩ := add_name b x y
  have hchars := congrArg String.toList (hout.symm.trans hempty)
  simp [GraphBuilder.nameAt, String.toList_append] at hchars

section

/-- The operators' meaning in exact arithmetic. `V` holds the tensors of all shapes, and what an addition of
two shapes broadcasts to is left open. -/
structure TensorSemantics (S V : Type) [AddCommMonoid V] where
  space : S → AddSubmonoid V
  ofTensor : Tensor → V
  run : Node → (String → Option V) → List V
  run_congr : ∀ n e e', (∀ x ∈ n.reads, e x = e' x) → run n e = run n e'
  run_add : ∀ x y out e s, x ≠ "" → y ≠ "" → ∀ u ∈ space s, ∀ v ∈ space s, e x = some u → e y = some v →
    run (.mk "" "" "Add" [x, y] [out] []) e = [u + v]

variable {S V : Type} [AddCommMonoid V] (sem : TensorSemantics S V)

def behaviour : Behaviour Node String V where
  reads := Node.reads
  writes n := slots n.output
  run := sem.run
  run_congr := sem.run_congr

def outs (ns : List Node) : List String := ns.flatMap fun n => nonempty n.output

theorem outs_append (ms ns : List Node) : outs (ms ++ ns) = outs ms ++ outs ns := flatMap_append

theorem flatMap_written (ns : List Node) : ns.flatMap (written (behaviour sem)) = outs ns :=
  congrArg (ns.flatMap ·) (funext fun n => named_slots n.output)

variable (given : List String) (base : String → Option V)

/-- The names a node may read: what is given, initializers and results so far. -/
def known (b : GraphBuilder) : List String := given ++ b.initializer.map Prod.fst ++ outs b.nodes

/-- A name for a rule to read; the empty name stands for an omitted input. -/
def Available (b : GraphBuilder) (x : String) : Prop := x ≠ "" ∧ x ∈ known given b

/-- `e` holds the values of the given tensors and of all that the builder holds. -/
structure Models (e : String → Option V) (b : GraphBuilder) : Prop where
  given : ∀ x ∈ given, e x = base x
  initializer : ∀ p ∈ b.initializer, e p.1 = some (sem.ofTensor p.2)
  nodes : ∀ n ∈ b.nodes, Solves (behaviour sem) n e

end

variable {S V : Type} [AddCommMonoid V] (sem : TensorSemantics S V) (given : List String)

/-- What has been emitted from `b` to `b'`: nodes that read what is known or emitted before them, under
names that the counter has not reached before. -/
structure Emits (b b' : GraphBuilder) (added : List (String × Tensor)) (new : List Node) : Prop where
  nodes : b'.nodes = b.nodes ++ new
  initializer : b'.initializer = b.initializer ++ added
  namePrefix : b'.namePrefix = b.namePrefix
  counter : b.counter ≤ b'.counter
  inScope : Scoped (behaviour sem) (known given b ++ added.map Prod.fst) new
  names : ∀ x ∈ added.map Prod.fst ++ outs new, ∃ hint k, x = GraphBuilder.nameAt b.namePrefix hint k ∧
    b.counter < k ∧ k ≤ b'.counter
  distinct : (added.map Prod.fst ++ outs new).Nodup

def Extends (b b' : GraphBuilder) : Prop := ∃ added new, Emits sem given b b' added new

variable {sem given} {b b' b'' : GraphBuilder} {added : List (String × Tensor)} {new : List Node}

theorem Emits.known_eq (h : Emits sem given b b' added new) (x : String) :
    x ∈ known given b' ↔ x ∈ known given b ∨ x ∈ added.map Prod.fst ++ outs new := by
  rw [known, known, h.nodes, h.initializer, outs_append, map_append]
  simp only [mem_append]
  tauto

theorem Extends.refl (b : GraphBuilder) : Extends sem given b b :=
  ⟨[], [], by simp, by simp, rfl, Nat.le_refl _, trivial, by simp [outs], by simp [outs]⟩

theorem Extends.trans (h : Extends sem given b b') (h' : Extends sem given b' b'') : Extends sem given b b'' := by
  obtain ⟨added, new, h⟩ := h
  obtain ⟨added', new', h'⟩ := h'
  refine ⟨added ++ added', new ++ new', ?_, ?_, h'.namePrefix.trans h.namePrefix,
    Nat.le_trans h.counter h'.counter, ?_, ?_, ?_⟩
  · rw [h'.nodes, h.nodes, append_assoc]
  · rw [h'.initializer, h.initializer, append_assoc]
  · refine Scoped.append _ (h.inScope.mono _ fun x hx => ?_) (h'.inScope.mono _ fun x hx => ?_)
    · rw [map_append, ← append_assoc]
      exact mem_append_left _ hx
    · rw [mem_append, h.known_eq] at hx
      rw [flatMap_written]
      simp only [map_append, mem_append] at hx ⊢
      tauto
  · intro x hx
    have hmem : x ∈ added.map Prod.fst ++ outs new ∨ x ∈ added'.map Prod.fst ++ outs new' := by
      rw [outs_append, map_append] at hx
      simp only [mem_append] at hx ⊢
      tauto
    cases hmem with
    | inl hx =>
      obtain ⟨hint, k, hname, hlow, hhigh⟩ := h.names x hx
      exact ⟨hint, k, hname, hlow, Nat.le_trans hhigh h'.counter⟩
    | inr hx =>
      obtain ⟨hint, k, hname, hlow, hhigh⟩ := h'.names x hx
      rw [h.namePrefix] at hname
      exact ⟨hint, k, hname, Nat.lt_of_le_of_lt h.counter hlow, hhigh⟩
  · have hperm : ((added ++ added').map Prod.fst ++ outs (new ++ new')).Perm
        ((added.map Prod.fst ++ outs new) ++ (added'.map Prod.fst ++ outs new')) := by
      rw [outs_append, map_append, append_assoc, append_assoc]
      refine List.Perm.append_left _ ?_
      rw [← append_assoc, ← append_assoc]
      exact perm_append_comm.append_right _
    refine hperm.nodup_iff.mpr (nodup_append.mpr ⟨h.distinct, h'.distinct, ?_⟩)
    intro x hx y hy hxy
    obtain ⟨hint, k, hname, -, hhigh⟩ := h.names x hx
    obtain ⟨hint', k', hname', hlow, -⟩ := h'.names y hy
    rw [h.namePrefix] at hname'
    have hk := nameAt_injective (hname.symm.trans (hxy.trans hname'))
    omega

theorem Extends.available_mono (h : Extends sem given b b') {x : String} (hx : Available given b x) :
    Available given b' x := by
  obtain ⟨added, new, h⟩ := h
  exact ⟨hx.1, (h.known_eq x).mpr (.inl hx.2)⟩

theorem Models.of_extends {base e : String → Option V} (h : Extends sem given b b')
    (he : Models sem given base e b') : Models sem given base e b := by
  obtain ⟨added, new, h⟩ := h
  refine ⟨he.given, fun p hp => he.initializer p ?_, fun n hn => he.nodes n ?_⟩
  · rw [h.initializer]
    exact mem_append_left _ hp
  · rw [h.nodes]
    exact mem_append_left _ hn

theorem extends_add {x y : String} (hx : Available given b x) (hy : Available given b y) :
    Extends sem given b (b.add x y).2 ∧ Available given (b.add x y).2 (b.add x y).1 := by
  obtain ⟨hint, hout⟩ := add_name b x y
  have hwritten : outs [.mk "" "" "Add" [x, y] [(b.add x y).1] []] = nonempty [(b.add x y).1] := by
    rw [outs, flatMap_singleton]
    rfl
  have hself : nonempty [(b.add x y).1] = [(b.add x y).1] := by simp [nonempty, add_ne_empty]
  have hemits : Emits sem given b (b.add x y).2 [] [.mk "" "" "Add" [x, y] [(b.add x y).1] []] := by
    refine ⟨rfl, (append_nil _).symm, rfl, Nat.le_succ _, ⟨?_, trivial⟩, ?_, ?_⟩
    · intro z hz
      have hz' : z ∈ nonempty [x, y] ++ freeAttrs [] := hz
      simp only [nonempty, freeAttrs, append_nil, mem_filter, mem_cons, not_mem_nil,
        or_false] at hz'
      rw [map_nil, append_nil]
      cases hz'.1 with
      | inl hzx => exact hzx ▸ hx.2
      | inr hzy => exact hzy ▸ hy.2
    · intro z hz
      rw [hwritten, hself, map_nil, nil_append, mem_singleton] at hz
      exact ⟨hint, b.counter + 1, hz.trans hout, Nat.lt_succ_self _, Nat.le_refl _⟩
    · rw [hwritten, hself]
      exact nodup_singleton _
  refine ⟨⟨_, _, hemits⟩, add_ne_empty b x y, (hemits.known_eq _).mpr (.inr ?_)⟩
  rw [hwritten, hself]
  exact mem_singleton_self _

theorem value_add {base e : String → Option V} {x y : String} {s : S} {u v : V} (hxne : x ≠ "") (hyne : y ≠ "")
    (hu : u ∈ sem.space s) (hv : v ∈ sem.space s) (he : Models sem given base e (b.add x y).2) (hx : e x = some u) (hy : e y = some v) :
    e (b.add x y).1 = some (u + v) := by
  have hnode : Node.mk "" "" "Add" [x, y] [(b.add x y).1] [] ∈ (b.add x y).2.nodes :=
    mem_append_right _ (mem_singleton_self _)
  have hslot : ((behaviour sem).writes (.mk "" "" "Add" [x, y] [(b.add x y).1] []))[0]? =
      some (some (b.add x y).1) := by
    simp [behaviour, slots, Node.output, add_ne_empty]
  have hsolve := he.nodes _ hnode 0 (b.add x y).1 hslot
  rw [hsolve]
  change (sem.run _ e)[0]? = _
  rw [sem.run_add x y _ e s hxne hyne u hu v hv hx hy]
  rfl

/-- The initializers that are added hide nothing that is known. -/
def withInitializers (sem : TensorSemantics S V) (added : List (String × Tensor)) (e : String → Option V) :
    String → Option V :=
  fun x => match getList x added with
    | some t => some (sem.ofTensor t)
    | none => e x

theorem Extends.exists_models {base e : String → Option V} (h : Extends sem given b b')
    (he : Models sem given base e b) (hreads : ∀ n ∈ b.nodes, ∀ x ∈ n.reads, x ∈ known given b)
    (hfresh : ∀ x ∈ known given b, ∀ hint k, b.counter < k → x ≠ GraphBuilder.nameAt b.namePrefix hint k) :
    ∃ e', Models sem given base e' b' ∧ ∀ x ∈ known given b, e' x = e x := by
  obtain ⟨added, new, h⟩ := h
  have hnew : ∀ x ∈ known given b, x ∉ added.map Prod.fst ++ outs new := by
    intro x hx hmem
    obtain ⟨hint, k, hname, hk, -⟩ := h.names x hmem
    exact hfresh x hx hint k hk hname
  obtain ⟨haddedNodup, hnewNodup, hdisjoint⟩ := nodup_append.mp h.distinct
  have hbefore : ∀ x, x ∉ added.map Prod.fst → withInitializers sem added e x = e x := by
    intro x hx
    have hnone : getList x added = none := by
      rw [Option.eq_none_iff_forall_ne_some]
      intro t ht
      exact hx (List.mem_map_of_mem ((getList_eq_some_iff haddedNodup).mp ht))
    rw [withInitializers, hnone]
  have hkeep : ∀ x ∈ known given b, eval (behaviour sem) new (withInitializers sem added e) x = e x := by
    intro x hx
    have hnot := hnew x hx
    rw [mem_append, not_or] at hnot
    rw [eval_of_notMem, hbefore x hnot.1]
    rw [flatMap_written]
    exact hnot.2
  have hscope : Scoped (behaviour sem) (known given b ++ added.map Prod.fst).dedup new :=
    h.inScope.mono _ fun x hx => mem_dedup.mpr hx
  have hsingle : SingleAssignment (behaviour sem) (known given b ++ added.map Prod.fst).dedup new := by
    rw [SingleAssignment, flatMap_written]
    refine nodup_append.mpr ⟨nodup_dedup _, hnewNodup, fun x hx y hy hxy => ?_⟩
    rw [mem_dedup, mem_append] at hx
    cases hx with
    | inl hold => exact hnew x hold (mem_append_right _ (hxy ▸ hy))
    | inr hadded => exact hdisjoint x hadded y hy hxy
  refine ⟨eval (behaviour sem) new (withInitializers sem added e), ⟨?_, ?_, ?_⟩, hkeep⟩
  · intro x hx
    rw [hkeep x (mem_append_left _ (mem_append_left _ hx)), he.given x hx]
  · intro p hp
    rw [h.initializer, mem_append] at hp
    cases hp with
    | inl hold =>
      have hknown : p.1 ∈ known given b :=
        mem_append_left _ (mem_append_right _ (List.mem_map_of_mem hold))
      rw [hkeep _ hknown, he.initializer p hold]
    | inr hadded =>
      have hname : p.1 ∈ added.map Prod.fst := List.mem_map_of_mem hadded
      have hget : getList p.1 added = some p.2 := (getList_eq_some_iff haddedNodup).mpr hadded
      rw [eval_of_notMem, withInitializers, hget]
      rw [flatMap_written]
      exact fun hmem => hdisjoint p.1 hname p.1 hmem rfl
  · intro n hn
    rw [h.nodes, mem_append] at hn
    cases hn with
    | inl hold =>
      intro j x hj
      have hwritten : x ∈ outs b.nodes := by
        rw [← flatMap_written sem]
        exact mem_flatMap.mpr ⟨n, hold, mem_filterMap.mpr ⟨some x, mem_of_getElem? hj, rfl⟩⟩
      have hrun := (behaviour sem).run_congr n _ e fun y hy => hkeep y (hreads n hold y hy)
      rw [hkeep x (mem_append_right _ hwritten), hrun]
      exact he.nodes n hold j x hj
    | inr hemitted => exact eval_solves _ hscope hsingle _ n hemitted

end Onnxsim.Gradients.Emission
