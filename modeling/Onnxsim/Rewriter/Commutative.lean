import Onnxsim.Rewriter.Completeness

namespace Onnxsim.Rewriter.Commutative

open List Completeness Embeddings Matching

variable {C V : Type} [DecidableEq C] [DecidableEq V] {pat : FunctionProto C V} {host : GraphProto C V} {root h : Nat}
  {s : MatchState C V} {ts : List (String × String)} {chosen : Nat → Bool}

omit [DecidableEq C] [DecidableEq V] in
theorem outputs_congr {nodes nodes' : List (NodeProto C V)}
    (h : nodes.map NodeProto.output = nodes'.map NodeProto.output) : outputs nodes = outputs nodes' := by
  have hform : ∀ l : List (NodeProto C V), outputs l = (l.map NodeProto.output).zipIdx.flatMap fun n =>
      (n.1.zipIdx.filter fun o => o.1 ≠ "").map fun o => (o.1, n.2, o.2) := by
    intro l
    rw [zipIdx_map, flatMap_map]
    rfl
  rw [hform, hform, h]

def swapNode (b : Bool) (n : NodeProto C V) : NodeProto C V :=
  if b = true ∧ n.input.length = 2 ∧ isCommutative n = true then { n with input := n.input.reverse } else n

omit [DecidableEq C] [DecidableEq V] in
theorem getElem?_swapOperands (k : Nat) :
    (swapOperands chosen host).node[k]? = host.node[k]?.map (swapNode (chosen k)) := getElem?_mapIdx

omit [DecidableEq C] [DecidableEq V] in
theorem swapNode_keeps (b : Bool) (n : NodeProto C V) :
    (swapNode b n).opType = n.opType ∧ (swapNode b n).domain = n.domain ∧ (swapNode b n).output = n.output ∧
      (swapNode b n).attributes = n.attributes ∧ (swapNode b n).input.length = n.input.length := by
  unfold swapNode
  split
  · exact ⟨rfl, rfl, rfl, rfl, length_reverse⟩
  · exact ⟨rfl, rfl, rfl, rfl, rfl⟩

omit [DecidableEq C] [DecidableEq V] in
theorem isCommutative_swapNode (b : Bool) (n : NodeProto C V) : isCommutative (swapNode b n) = isCommutative n := by
  obtain ⟨hop, hdomain, -⟩ := swapNode_keeps b n
  rw [isCommutative, isCommutative, hop, hdomain]

omit [DecidableEq C] [DecidableEq V] in
theorem swapNode_swapNode (b : Bool) (n : NodeProto C V) : swapNode b (swapNode b n) = n := by
  by_cases hswap : b = true ∧ n.input.length = 2 ∧ isCommutative n = true
  · have hlen := (swapNode_keeps b n).2.2.2.2
    have hcomm := isCommutative_swapNode b n
    rw [swapNode, hlen, hcomm, if_pos hswap, swapNode, if_pos hswap, reverse_reverse]
  · have hsame : swapNode b n = n := if_neg hswap
    rw [hsame, hsame]

omit [DecidableEq C] [DecidableEq V] in
theorem swapOperands_swapOperands : swapOperands chosen (swapOperands chosen host) = host := by
  have hnodes : (swapOperands chosen (swapOperands chosen host)).node = host.node := by
    apply ext_getElem?
    intro k
    rw [getElem?_swapOperands, getElem?_swapOperands]
    cases host.node[k]? with
    | none => rfl
    | some n => exact congrArg some (swapNode_swapNode _ n)
  exact congrArg (fun nodes => GraphProto.mk nodes host.initializer) hnodes

omit [DecidableEq C] [DecidableEq V] in
theorem producer_swapOperands (value : String) :
    producer (swapOperands chosen host).node value = producer host.node value := by
  rw [producer, producer, outputs_congr]
  apply ext_getElem?
  intro k
  rw [getElem?_map, getElem?_map, getElem?_swapOperands]
  cases host.node[k]? with
  | none => rfl
  | some n => exact congrArg some (swapNode_keeps _ n).2.2.1

omit [DecidableEq V] in
theorem visit_swapOperands (t : String × String) (s : MatchState C V) :
    visit pat (swapOperands chosen host) t s = visit pat host t s := by
  unfold visit
  rw [producer_swapOperands]
  rfl

theorem enter_swapOperands (p k : Nat) (s : MatchState C V) :
    enter pat (swapOperands chosen host) p k s = enter pat host p k s := by
  unfold enter
  rw [getElem?_swapOperands]
  cases pat.node[p]? with
  | none => rfl
  | some pnode =>
    cases host.node[k]? with
    | none => rfl
    | some hnode =>
      obtain ⟨hop, hdomain, -, hattrs, hlen⟩ := swapNode_keeps (chosen k) hnode
      have hsame : sameOp pnode (swapNode (chosen k) hnode) = sameOp pnode hnode := by
        rw [sameOp, sameOp, hop, hdomain]
      have hmatch : matchAttributes pnode (swapNode (chosen k) hnode) s.abind = matchAttributes pnode hnode s.abind := by
        have hfun : matchAttribute (swapNode (chosen k) hnode) = matchAttribute hnode := by
          funext abind pa
          rw [matchAttribute, matchAttribute, findAttr, hattrs]
          rfl
        rw [matchAttributes, hfun]
        rfl
      dsimp only [Option.map_some]
      rw [hsame, hlen, hmatch]

theorem mem_alternatives_swapOperands {p k : Nat} {s₁ : MatchState C V} (henter : enter pat host p k s = some s₁)
    {tasks : List (String × String)} (hmem : tasks ∈ alternatives pat host p k) :
    tasks ∈ alternatives pat (swapOperands chosen host) p k := by
  obtain ⟨pnode, hnode, hp, hk, -, hop, hlen, -⟩ := enter_eq_some henter
  obtain ⟨pnode', hnode', hp', hk', order, horder, rfl⟩ := mem_alternatives.mp hmem
  rw [hp] at hp'
  rw [hk] at hk'
  cases hp'
  cases hk'
  rw [mem_alternatives]
  have hk' : (swapOperands chosen host).node[k]? = some (swapNode (chosen k) hnode) := by
    rw [getElem?_swapOperands, hk]
    rfl
  by_cases hswap : chosen k = true ∧ hnode.input.length = 2 ∧ isCommutative hnode = true
  · have hsame : isCommutative pnode = isCommutative hnode := by
      have hop' : pnode.opType = hnode.opType ∧ normDomain pnode.domain = normDomain hnode.domain := by
        simpa [sameOp] using hop
      rw [isCommutative, isCommutative, hop'.1, hop'.2]
    have htwo : pnode.input.length = 2 := hlen.trans hswap.2.1
    have horders : orders pnode = [[0, 1], [1, 0]] := by
      rw [orders, if_pos ⟨htwo, hsame.trans hswap.2.2⟩, htwo]
      rfl
    obtain ⟨a, b, hinput⟩ := length_eq_two.mp hswap.2.1
    have hinput' : (swapNode (chosen k) hnode).input = [b, a] := by
      rw [swapNode, if_pos hswap]
      show hnode.input.reverse = _
      rw [hinput]
      rfl
    rw [horders] at horder
    refine ⟨pnode, _, hp, hk', ?_⟩
    rw [horders]
    simp only [mem_cons, not_mem_nil, or_false] at horder
    obtain rfl | rfl := horder
    · refine ⟨[1, 0], by simp, ?_⟩
      rw [operands, operands, hinput, hinput']
      rfl
    · refine ⟨[0, 1], by simp, ?_⟩
      rw [operands, operands, hinput, hinput']
      rfl
  · have hsame : swapNode (chosen k) hnode = hnode := if_neg hswap
    rw [hsame] at hk'
    exact ⟨pnode, hnode, hp, hk', order, horder, rfl⟩

theorem runs_swapOperands {s' : MatchState C V} (hrun : Runs pat host ts s s') :
    Runs pat (swapOperands chosen host) ts s s' := by
  induction hrun with
  | nil s => exact Runs.nil s
  | done hvisit hrest ih => exact Runs.done (by rw [visit_swapOperands, hvisit]) ih
  | known hvisit hknown hrest ih => exact Runs.known (by rw [visit_swapOperands, hvisit]) hknown ih
  | node hvisit hnew henter horder hinner hrest ih₁ ih₂ =>
    exact Runs.node (by rw [visit_swapOperands, hvisit]) hnew (by rw [enter_swapOperands, henter])
      (mem_alternatives_swapOperands henter horder) ih₁ ih₂

theorem reaches_swapOperands (hreach : Reaches pat host root h ts s) :
    Reaches pat (swapOperands chosen host) root h ts s := by
  induction hreach with
  | root henter horder =>
    exact Reaches.root (by rw [enter_swapOperands, henter]) (mem_alternatives_swapOperands henter horder)
  | inner hreach hvisit hnew henter horder ih =>
    exact Reaches.inner ih (by rw [visit_swapOperands, hvisit]) hnew (by rw [enter_swapOperands, henter])
      (mem_alternatives_swapOperands henter horder)
  | next hreach hrun ih => exact Reaches.next ih (runs_swapOperands hrun)

theorem embeddable_swapOperands (hembed : Embeddable pat host root h) :
    Embeddable pat (swapOperands chosen host) root h := by
  obtain ⟨s, tasks, s', henter, horder, hrun⟩ := runs_of_embeddable hembed
  exact embeddable_of_runs ((enter_swapOperands _ _ _).trans henter) (mem_alternatives_swapOperands henter horder)
    (runs_swapOperands hrun)

omit [DecidableEq C] [DecidableEq V] in
theorem of_swapOperands {P : GraphProto C V → Prop} (hswap : P (swapOperands chosen (swapOperands chosen host))) : P host := by
  rwa [swapOperands_swapOperands] at hswap

theorem indifferent_swapOperands (hindep : Indifferent pat host root h) :
    Indifferent pat (swapOperands chosen host) root h := by
  have hback : ∀ {ts s s'}, Runs pat (swapOperands chosen host) ts s s' → Runs pat host ts s s' :=
    fun hrun => of_swapOperands (P := fun g => Runs pat g _ _ _) (runs_swapOperands hrun)
  intro t ts s s₁ s₂ hreach h₁ h₂ hrest
  obtain ⟨s', hrest⟩ := hrest
  have hreach' : Reaches pat host root h (t :: ts) s :=
    of_swapOperands (P := fun g => Reaches pat g _ _ _ _) (reaches_swapOperands hreach)
  obtain ⟨s'', hrun⟩ := hindep t ts s s₁ s₂ hreach' (hback h₁) (hback h₂) ⟨s', hback hrest⟩
  exact ⟨s'', runs_swapOperands hrun⟩

/-- All but the last of a list of operands are wildcards, or absent. -/
def WildcardsFirst (pat : FunctionProto C V) (names : List String) : Prop := ∀ x ∈ names.dropLast, x = "" ∨ x ∈ pat.input

omit [DecidableEq C] [DecidableEq V] in
theorem length_order {p : NodeProto C V} {order : List Nat} (h : order ∈ orders p) : order.length = p.input.length := by
  unfold orders at h
  split at h
  · next hguard =>
    simp only [mem_cons, not_mem_nil, or_false] at h
    obtain rfl | rfl := h
    · exact length_range
    · exact hguard.1.symm
  · rw [mem_singleton.mp h, length_range]

omit [DecidableEq C] [DecidableEq V] in
theorem wildcardsFirst_tail {x : String} {names : List String} (hw : WildcardsFirst pat (x :: names)) :
    WildcardsFirst pat names := by
  cases names with
  | nil => simp [WildcardsFirst]
  | cons y names =>
    intro z hz
    exact hw z (mem_cons_of_mem _ hz)

theorem wildcardsFirst_reaches (hpat : ∀ n ∈ pat.node, WildcardsFirst pat n.input)
    (hreach : Reaches pat host root h ts s) : WildcardsFirst pat (ts.map Prod.fst) := by
  have halt : ∀ {p k tasks}, tasks ∈ alternatives pat host p k → WildcardsFirst pat (tasks.map Prod.fst) := by
    intro p k tasks hmem
    obtain ⟨pnode, hnode, hp, -, order, horder, rfl⟩ := mem_alternatives.mp hmem
    rw [operands, map_fst_zip (by rw [length_map, length_order horder])]
    exact hpat pnode (mem_of_getElem? hp)
  induction hreach with
  | root henter horder => exact halt horder
  | inner hreach hvisit hnew henter horder ih => exact halt horder
  | next hreach hrun ih => exact wildcardsFirst_tail ih

theorem indifferent_of_wildcardsFirst (hpat : ∀ n ∈ pat.node, WildcardsFirst pat n.input) :
    Indifferent pat host root h := by
  intro t ts s s₁ s₂ hreach h₁ h₂ hrest
  cases ts with
  | nil => exact ⟨s₂, Runs.nil s₂⟩
  | cons t' ts =>
    have hwild : t.1 = "" ∨ t.1 ∈ pat.input := wildcardsFirst_reaches hpat hreach t.1 mem_cons_self
    have hleaf : ∀ q, visit pat host t s ≠ some (.inr q) := by
      intro q hvisit
      unfold visit at hvisit
      obtain hblank | hin := hwild
      · rw [if_pos (Or.inl hblank)] at hvisit
        split at hvisit <;> cases hvisit
      · rw [if_pos hin] at hvisit
        split at hvisit
        · split at hvisit <;> cases hvisit
        · split at hvisit
          · split at hvisit <;> cases hvisit
          · cases hvisit
    have hone : ∀ {s'}, Runs pat host [t] s s' → visit pat host t s = some (.inl s') := by
      intro s' hrun
      obtain ⟨s₀, hvisit, hnil⟩ | ⟨p, k, s₀, hvisit, -⟩ := visited_cases hrun
      · cases hnil
        exact hvisit
      · exact absurd hvisit (hleaf _)
    have hsame : s₁ = s₂ := by
      have heq := (hone h₁).symm.trans (hone h₂)
      cases heq
      rfl
    rwa [← hsame]

/-- When whether the later operands of a node can be matched does not depend on how the earlier ones were, the matcher
finds an embedding if there is one, whichever operands of commutative nodes are swapped. -/
theorem matching_ignores_swaps (hindep : Indifferent pat host root h) (chosen : Nat → Bool) :
    ((matchRoot pat (swapOperands chosen host) root h).isSome = true ↔ Embeddable pat host root h) ∧
      ((matchRoot pat host root h).isSome = true → (matchRoot pat (swapOperands chosen host) root h).isSome = true) := by
  have hswapped : (matchRoot pat (swapOperands chosen host) root h).isSome = true ↔ Embeddable pat host root h := by
    rw [match_iff_embeddable (indifferent_swapOperands hindep)]
    constructor
    · intro hembed
      exact of_swapOperands (P := fun g => Embeddable pat g root h) (embeddable_swapOperands hembed)
    · exact embeddable_swapOperands
  exact ⟨hswapped, fun hmatch => hswapped.mpr ((match_iff_embeddable hindep).mp hmatch)⟩

def binary (op x y out : String) : NodeProto Unit Unit := ⟨op, "", [x, y], [out], []⟩

/-- `(x + y) - x` -/
def cancelling : FunctionProto Unit Unit := ⟨["x", "y"], [binary "Add" "x" "y" "t", binary "Sub" "t" "x" "o"]⟩

/-- `x - (x + y)` -/
def cancelled : FunctionProto Unit Unit := ⟨["x", "y"], [binary "Add" "x" "y" "t", binary "Sub" "x" "t" "o"]⟩

/-- `(a + b) - a` -/
def sums (minuend subtrahend : String) : GraphProto Unit Unit :=
  ⟨[binary "Add" "a" "b" "u", binary "Sub" minuend subtrahend "w"], []⟩

def firstNode (i : Nat) : Bool := i = 0

/-- With the operands of the sum swapped, its first operand is bound to the wrong value, and that is not taken back. -/
theorem swapped_sum_unmatched : (matchRoot cancelling (sums "u" "a") 1 1).isSome = true ∧
    (matchRoot cancelling (swapOperands firstNode (sums "u" "a")) 1 1).isSome = false := by
  refine ⟨?_, ?_⟩ <;> decide

theorem swapped_sum_matched :
    ((matchRoot cancelled (swapOperands firstNode (sums "a" "u")) 1 1).isSome = true ↔ Embeddable cancelled (sums "a" "u") 1 1) ∧
      ((matchRoot cancelled (sums "a" "u") 1 1).isSome = true →
        (matchRoot cancelled (swapOperands firstNode (sums "a" "u")) 1 1).isSome = true) :=
  matching_ignores_swaps (indifferent_of_wildcardsFirst (by unfold WildcardsFirst; decide)) firstNode

end Onnxsim.Rewriter.Commutative
