import Onnxsim.Bitwise.Splitting

namespace Onnxsim.Bitwise.Exactness

open List Decomposition Meaning Splitting Words
open Lib.Dataflow
open Overflow.Arrays hiding readAt
open Proto.Graphs (Node nonempty)
open Proto.Models (isDefaultDomain)
open ShapeRanges.Broadcasting (actualBroadcast2 actualBroadcast2_self)

section

variable {O : Type}

def defs (g : Graph) : List String := (g.input.map ValueInfo.name ++ g.initializer.map Prod.fst).dedup

/-- The values of a graph's names, where `e` holds the inputs and the initializers. -/
def evalGraph (rt : Runtime O) (g : Graph) (e : String → Option (Tensor O)) : String → Option (Tensor O) :=
  eval (behaviour rt) g.node e

/-- A topologically sorted graph in single static assignment form. -/
structure Valid (rt : Runtime O) (g : Graph) : Prop where
  sorted : Scoped (behaviour rt) (defs g) g.node
  single : SingleAssignment (behaviour rt) (defs g) g.node

/-- Every value info that the graph comes with is right in a run. -/
def TruthfulRun (ρ : String → Nat) (g : Graph) (e : String → Option (Tensor O)) : Prop :=
  ∀ v ∈ g.infos, ∀ t a, e v.name = some (.ints t a) → Truthful ρ v t a.shape

/-- The difference is the mathematical one at every element. -/
def NoOverflow (m : Node) (e : String → Option (Tensor O)) : Prop :=
  ∀ t (a b : NDArray (BitVec t.width)), operands m e = [some (.ints t a), some (.ints t b)] →
    ∀ s, actualBroadcast2 a.shape b.shape = some s → ∀ idx ∈ indices s,
      value t.signed (readAt a idx - readAt b idx) = value t.signed (readAt a idx) - value t.signed (readAt b idx)

/-- What a run of the graph after the pass has to do with the run before. -/
structure Decomposes (rt : Runtime O) (ρ : String → Nat) (e : String → Option (Tensor O)) (g g' : Graph) :
    Prop where
  input : g'.input = g.input
  output : g'.output = g.output
  initializer : g'.initializer = g.initializer
  valid : Valid rt g'
  values : ∀ v ∈ g.output, evalGraph rt g' e v.name = evalGraph rt g e v.name
  noOverflow : ∀ m ∈ g'.node, m ∉ g.node → m.opType = "Sub" → NoOverflow m (evalGraph rt g' e)
  declared : ∀ v ∈ g'.valueInfo, v ∉ g.valueInfo → ∀ t a, evalGraph rt g' e v.name = some (.ints t a) →
    Declares ρ v t a.shape

def Named (g : Graph) : Prop := ∀ n ∈ g.node, Rewritable (elemTypes g) n → "" ∉ n.output

/-- The value info of every operand of an XOR that is taken apart declares its type and its shape, and no
length in it is one that broadcasting changes. -/
def Unstretched (g : Graph) (e : String → Option (Tensor O)) : Prop :=
  ∀ n ∈ g.node, Rewritable (elemTypes g) n → ∀ x ∈ n.input, ∀ v, byName g x = some v →
    ∀ t a, e x = some (.ints t a) → ∀ out ∈ n.output, ∀ u z, e out = some (.ints u z) → Carries v a.shape z.shape

/-- An operator fails on two operands whatever it does with their elements, or it works on each element of
two integer tensors of one type. -/
theorem binary_cases (ops : List (Option (Tensor O))) :
    (∀ f, binary f ops = []) ∨ ∃ t x y s, ops = [some (.ints t x), some (.ints t y)] ∧
      actualBroadcast2 x.shape y.shape = some s ∧
      ∀ f, binary f ops = [.ints t (NDArray.ofFn s fun idx => f t.width (readAt x idx) (readAt y idx))] := by
  by_cases hops : ∃ t x y, ops = [some (.ints t x), some (.ints t y)]
  · obtain ⟨t, x, y, rfl⟩ := hops
    cases hs : actualBroadcast2 x.shape y.shape with
    | none =>
      left
      intro f
      simp [binary, elementwise, hs]
    | some s =>
      right
      refine ⟨t, x, y, s, rfl, hs, ?_⟩
      intro f
      simp [binary, elementwise, hs]
  · left
    intro f
    unfold binary
    split
    · next t a u b =>
      by_cases htu : u = t
      · subst htu
        exact absurd ⟨u, a, b, rfl⟩ hops
      · rw [dif_neg htu]
    · rfl

theorem binary_or_sub_and (ops : List (Option (Tensor O))) :
    binary (fun _ x y => x - y) [(binary (fun _ x y => x ||| y) ops)[0]?, (binary (fun _ x y => x &&& y) ops)[0]?] =
      binary (fun _ x y => x ^^^ y) ops := by
  rcases binary_cases ops with hfail | ⟨t, x, y, s, -, -, hrun⟩
  · rw [hfail, hfail, hfail]
    rfl
  · rw [hrun, hrun, hrun]
    simp [binary, elementwise_ofFn, or_sub_and]

theorem not_isOther_binary (f : ∀ w : Nat, BitVec w → BitVec w → BitVec w) (ops : List (Option (Tensor O))) :
    isOther (binary f ops)[0]? = false := by
  rcases binary_cases ops with hfail | ⟨t, x, y, s, -, -, hrun⟩
  · rw [hfail]
    rfl
  · rw [hrun]
    rfl

variable (rt : Runtime O) (e : String → Option (Tensor O))

theorem runNode_xor {n : Node} (h : isXor n = true) :
    runNode rt n e = binary (fun _ x y => x ^^^ y) (operands n e) := by
  obtain ⟨hop, hdomain⟩ : n.opType = "BitwiseXor" ∧ isDefaultDomain n.domain = true := by simpa [isXor] using h
  rw [runNode, if_pos hdomain, if_pos hop]

variable (k : Split)

theorem runNode_or (hin : k.node.input = [k.a, k.b]) :
    runNode rt k.orNode e = binary (fun _ x y => x ||| y) (operands k.node e) := by
  rw [operands, hin]
  rfl

theorem runNode_and (hin : k.node.input = [k.a, k.b]) :
    runNode rt k.andNode e = binary (fun _ x y => x &&& y) (operands k.node e) := by
  rw [operands, hin]
  rfl

theorem runNode_sub {ops : List (Option (Tensor O))} (hops : operands k.subNode e =
      [(binary (fun _ x y => x ||| y) ops)[0]?, (binary (fun _ x y => x &&& y) ops)[0]?]) :
    runNode rt k.subNode e = binary (fun _ x y => x - y) (operands k.subNode e) := by
  have hkind : k.subNode.opType = "Sub" ∧ ¬ (operands k.subNode e).any isOther := by
    refine ⟨rfl, ?_⟩
    rw [hops]
    simp [not_isOther_binary]
  have hdomain : isDefaultDomain k.subNode.domain = true := rfl
  have hop : ∀ op, "Sub" ≠ op → ¬ k.subNode.opType = op := fun _ hne => hkind.1 ▸ hne
  rw [runNode, if_pos hdomain, if_neg (hop _ (by decide)), if_neg (hop _ (by decide)), if_neg (hop _ (by decide)),
    if_pos hkind]

theorem operands_sub (hor : k.orName ≠ "") (hand : k.andName ≠ "") :
    operands k.subNode e = [e k.orName, e k.andName] := by
  change [operand e k.orName, operand e k.andName] = _
  rw [operand, if_neg hor, operand, if_neg hand]

end

variable {x : String} {O : Type} {rt : Runtime O} {g : Graph}

theorem mem_usedNames_of_defs (hx : x ∈ defs g) : x ∈ usedNames g := by
  rw [defs, mem_dedup, mem_append] at hx
  rw [usedNames, map_append, map_append]
  rcases hx with hx | hx <;> simp only [mem_append, hx, true_or, or_true]

theorem mem_usedNames_of_output {n : Node} (hn : n ∈ g.node) (hx : x ∈ nonempty n.output) : x ∈ usedNames g := by
  apply mem_append_right
  exact mem_flatMap.mpr ⟨n, hn, mem_append_right _ hx⟩

theorem mem_usedNames_of_written (hx : x ∈ g.node.flatMap (written (behaviour rt))) : x ∈ usedNames g := by
  obtain ⟨n, hn, hmem⟩ := mem_flatMap.mp hx
  rw [written_eq] at hmem
  exact mem_usedNames_of_output hn hmem

theorem mem_usedNames_of_defined (hx : x ∈ defs g ++ g.node.flatMap (written (behaviour rt))) : x ∈ usedNames g := (mem_append.mp hx).elim mem_usedNames_of_defs mem_usedNames_of_written

theorem mem_usedNames_of_reads (hv : Valid rt g) {n : Node} (hn : n ∈ g.node) (hx : x ∈ n.reads) :
    x ∈ usedNames g := by
  exact mem_usedNames_of_defined (hv.sorted.mem_of_reads (behaviour rt) hn hx)

theorem mem_usedNames_of_info {v : ValueInfo} (hv : v ∈ g.infos) : v.name ∈ usedNames g := by
  rw [Graph.infos, mem_append, mem_append] at hv
  apply mem_append_left
  apply mem_append_left
  apply List.mem_map_of_mem
  rw [mem_append, mem_append]
  exact hv.elim (fun h => h.elim .inr fun h => .inl (.inl h)) fun h => .inl (.inr h)

variable {types : Types} {ms : List Node} {ks : List Split}

theorem writes_intros (rt : Runtime O) (hne : ∀ x ∈ ks.flatMap Split.names, x ≠ "") :
    (intros ks).map (behaviour rt).writes = (ks.flatMap Split.names).map fun x => [some x] := by
  induction ks with
  | nil => rfl
  | cons k ks ih =>
    have hor : k.orName ≠ "" := hne k.orName (by simp [Split.names])
    have hand : k.andName ≠ "" := hne k.andName (by simp [Split.names])
    have hrest := ih fun x hx => hne x (by rw [flatMap_cons]; exact mem_append_right _ hx)
    have hwor : (behaviour rt).writes k.orNode = [some k.orName] := by
      change Onnxsim.Fold.Semantics.slots [k.orName] = _
      simp [Onnxsim.Fold.Semantics.slots, hor]
    have hwand : (behaviour rt).writes k.andNode = [some k.andName] := by
      change Onnxsim.Fold.Semantics.slots [k.andName] = _
      simp [Onnxsim.Fold.Semantics.slots, hand]
    rw [intros] at hrest
    rw [intros, flatMap_cons, flatMap_cons, map_append, map_append, hrest]
    simp [hwor, hwand, Split.names]

/-- Facts about a pass that took apart the XORs `ks` of a valid graph. -/
structure Pass (rt : Runtime O) (g : Graph) (types : Types) (ms : List Node) (ks : List Split) : Prop where
  valid : Valid rt g
  splits : Splits types g.node ms ks
  nodup : (ks.flatMap Split.names).Nodup
  fresh : ∀ x ∈ ks.flatMap Split.names, x ∉ usedNames g ∧ x ≠ ""

variable (h : Pass rt g types ms ks)

include h

variable {k : Split} {m : Node}

theorem Pass.names (hk : k ∈ ks) :
    (k.orName ∉ usedNames g ∧ k.orName ≠ "") ∧ k.andName ∉ usedNames g ∧ k.andName ≠ "" := by
  have hmem : ∀ x ∈ k.names, x ∈ ks.flatMap Split.names := fun x hx => mem_flatMap.mpr ⟨k, hk, hx⟩
  exact ⟨h.fresh _ (hmem _ (by simp [Split.names])), h.fresh _ (hmem _ (by simp [Split.names]))⟩

theorem Pass.introduces : Introduces (behaviour rt) (usedNames g) (intros ks) := by
  have hwrites := writes_intros rt fun x hx => (h.fresh x hx).2
  refine ⟨?_, ?_, ?_⟩
  · intro m hm
    have hmem : (behaviour rt).writes m ∈ (intros ks).map (behaviour rt).writes := List.mem_map_of_mem hm
    rw [hwrites] at hmem
    obtain ⟨x, hx, heq⟩ := List.mem_map.mp hmem
    exact ⟨x, heq.symm, (h.fresh x hx).1⟩
  · intro m hm x hx
    obtain ⟨k, hk, hmk⟩ := mem_flatMap.mp hm
    obtain ⟨hnode, -, hin, -⟩ := h.splits.mem_split hk
    apply mem_usedNames_of_reads h.valid hnode
    rw [mem_cons, mem_singleton] at hmk
    rcases hmk with rfl | rfl
    · exact mem_reads_of_same rfl hin hx
    · exact mem_reads_of_same rfl hin hx
  · have hnodup : ((intros ks).map (behaviour rt).writes).Nodup := by
      rw [hwrites]
      apply h.nodup.map
      intro x y hxy
      simpa using hxy
    exact pairwise_map.mp hnodup

variable (e : String → Option (Tensor O))

theorem Pass.solves_before {n : Node} (hn : n ∈ g.node) : Solves (behaviour rt) n (evalGraph rt g e) :=
  eval_solves (behaviour rt) h.valid.sorted h.valid.single e n hn

theorem Pass.extend_or (hk : k ∈ ks) :
    extend (behaviour rt) (intros ks) (evalGraph rt g e) k.orName =
      (binary (fun _ x y => x ||| y) (operands k.node (evalGraph rt g e)))[0]? := by
  have hmem : k.orNode ∈ intros ks := mem_flatMap.mpr ⟨k, hk, by simp⟩
  have hw : (behaviour rt).writes k.orNode = [some k.orName] := by
    change Onnxsim.Fold.Semantics.slots [k.orName] = _
    simp [Onnxsim.Fold.Semantics.slots, (h.names hk).1.2]
  rw [extend_intro h.introduces hmem hw, ← runNode_or rt _ k (h.splits.mem_split hk).2.2.1]
  rfl

theorem Pass.extend_and (hk : k ∈ ks) :
    extend (behaviour rt) (intros ks) (evalGraph rt g e) k.andName =
      (binary (fun _ x y => x &&& y) (operands k.node (evalGraph rt g e)))[0]? := by
  have hmem : k.andNode ∈ intros ks := mem_flatMap.mpr ⟨k, hk, by simp⟩
  have hw : (behaviour rt).writes k.andNode = [some k.andName] := by
    change Onnxsim.Fold.Semantics.slots [k.andName] = _
    simp [Onnxsim.Fold.Semantics.slots, (h.names hk).2.2]
  rw [extend_intro h.introduces hmem hw, ← runNode_and rt _ k (h.splits.mem_split hk).2.2.1]
  rfl

theorem Pass.solves_sub (hk : k ∈ ks) :
    Solves (behaviour rt) k.subNode (extend (behaviour rt) (intros ks) (evalGraph rt g e)) := by
  obtain ⟨hnode, hr, hin, hout, hne, -⟩ := h.splits.mem_split hk
  obtain ⟨⟨-, hor⟩, -, hand⟩ := h.names hk
  have hops := operands_sub (extend (behaviour rt) (intros ks) (evalGraph rt g e)) k hor hand
  rw [h.extend_or e hk, h.extend_and e hk] at hops
  have hrun : (behaviour rt).run k.subNode (extend (behaviour rt) (intros ks) (evalGraph rt g e)) =
      (behaviour rt).run k.node (evalGraph rt g e) := by
    change runNode rt k.subNode _ = runNode rt k.node _
    rw [runNode_xor rt _ hr.1, ← binary_or_sub_and, runNode_sub rt _ k hops, hops]
  intro j x hx
  have hslot : (behaviour rt).writes k.subNode = (behaviour rt).writes k.node := by
    change Onnxsim.Fold.Semantics.slots [k.out] = Onnxsim.Fold.Semantics.slots k.node.output
    rw [hout]
  rw [hslot] at hx
  have hmem : x ∈ written (behaviour rt) k.node :=
    mem_filterMap.mpr ⟨some x, mem_of_getElem? hx, rfl⟩
  have hold : x ∈ usedNames g := mem_usedNames_of_written (mem_flatMap.mpr ⟨_, hnode, hmem⟩)
  rw [hrun, extend_old h.introduces hold, h.solves_before e hnode j x hx]

omit e in
theorem Pass.expands : Expands (behaviour rt) g.node ms (intros ks) :=
  h.splits.expands rt fun x hx => (h.fresh x hx).2

omit e in
theorem Pass.valid_after (vi : List ValueInfo) : Valid rt { g with node := ms, valueInfo := vi } :=
  ⟨h.expands.scoped h.valid.sorted fun _ hx => hx,
    h.expands.single h.introduces (fun _ hx => mem_usedNames_of_defined hx) h.valid.single⟩

omit e in
theorem Pass.written_intros : (intros ks).flatMap (written (behaviour rt)) = ks.flatMap Split.names := by
  have hmap := congrArg (fun l => l.flatMap named) (writes_intros rt fun x hx => (h.fresh x hx).2)
  simp only [flatMap_map] at hmap
  refine hmap.trans ?_
  simp [named]

theorem Pass.eval_after (vi : List ValueInfo) (hx : x ∈ usedNames g ∨ x ∈ ks.flatMap Split.names) :
    evalGraph rt { g with node := ms, valueInfo := vi } e x =
      extend (behaviour rt) (intros ks) (evalGraph rt g e) x := by
  rw [← h.written_intros] at hx
  apply h.expands.eval_eq h.introduces h.valid.sorted h.valid.single (fun _ hx => mem_usedNames_of_defined hx) e _ hx
  intro m hm
  rcases h.splits.mem_after hm with hn | ⟨k, hk, rfl | rfl | rfl⟩
  · right
    apply solves_kept h.introduces (fun x hx => mem_usedNames_of_reads h.valid hn hx) ?_ (h.solves_before e hn)
    intro x hx
    exact mem_usedNames_of_written (mem_flatMap.mpr ⟨m, hn, hx⟩)
  · exact .inl (mem_flatMap.mpr ⟨k, hk, by simp⟩)
  · exact .inl (mem_flatMap.mpr ⟨k, hk, by simp⟩)
  · exact .inr (h.solves_sub e hk)

theorem Pass.result (hk : k ∈ ks) :
    (evalGraph rt g e k.out = none ∧ extend (behaviour rt) (intros ks) (evalGraph rt g e) k.orName = none ∧
      extend (behaviour rt) (intros ks) (evalGraph rt g e) k.andName = none) ∨
    ∃ t x y s, operands k.node (evalGraph rt g e) = [some (.ints t x), some (.ints t y)] ∧
      evalGraph rt g e k.out = some (.ints t (NDArray.ofFn s fun idx => readAt x idx ^^^ readAt y idx)) ∧
      extend (behaviour rt) (intros ks) (evalGraph rt g e) k.orName =
        some (.ints t (NDArray.ofFn s fun idx => readAt x idx ||| readAt y idx)) ∧
      extend (behaviour rt) (intros ks) (evalGraph rt g e) k.andName =
        some (.ints t (NDArray.ofFn s fun idx => readAt x idx &&& readAt y idx)) := by
  obtain ⟨hnode, hr, -, hout, hne, -⟩ := h.splits.mem_split hk
  have hslot : (behaviour rt).writes k.node = [some k.out] := by
    change Onnxsim.Fold.Semantics.slots k.node.output = _
    simp [Onnxsim.Fold.Semantics.slots, hout, hne]
  have hxor := h.solves_before e hnode 0 k.out (by rw [hslot]; rfl)
  have hrun : (behaviour rt).run k.node (evalGraph rt g e) =
      binary (fun _ x y => x ^^^ y) (operands k.node (evalGraph rt g e)) := runNode_xor rt _ hr.1
  rw [hrun] at hxor
  rw [hxor, h.extend_or e hk, h.extend_and e hk]
  rcases binary_cases (operands k.node (evalGraph rt g e)) with hfail | ⟨t, x, y, s, hops, -, hrun⟩
  · left
    simp [hfail]
  · right
    refine ⟨t, x, y, s, hops, ?_⟩
    simp [hrun]

omit e h in
theorem noOverflow_or_and {e' : String → Option (Tensor O)} {t : IntType} {s : List Nat}
    {f g : List Nat → BitVec t.width}
    (hops : operands m e' = [some (.ints t (NDArray.ofFn s fun idx => f idx ||| g idx)),
      some (.ints t (NDArray.ofFn s fun idx => f idx &&& g idx))]) :
    NoOverflow m e' := by
  intro u a b hab s' hs' idx hidx
  rw [hops] at hab
  cases hab
  have hshape : s' = s := by
    have hself : actualBroadcast2 s s = some s' := hs'
    rw [actualBroadcast2_self] at hself
    exact (Option.some.inj hself).symm
  rw [hshape] at hidx
  rw [readAt_ofFn _ hidx, readAt_ofFn _ hidx]
  exact value_or_sub_and t.signed (f idx) (g idx)

theorem Pass.noOverflow (vi : List ValueInfo) (hm : m ∈ ms) (hnew : m ∉ g.node) (hop : m.opType = "Sub") :
    NoOverflow m (evalGraph rt { g with node := ms, valueInfo := vi } e) := by
  rcases h.splits.mem_after hm with hold | ⟨k, hk, rfl | rfl | rfl⟩
  · exact absurd hold hnew
  · have hkind : k.orNode.opType = "BitwiseOr" := rfl
    rw [hkind] at hop
    exact absurd hop (by decide)
  · have hkind : k.andNode.opType = "BitwiseAnd" := rfl
    rw [hkind] at hop
    exact absurd hop (by decide)
  · obtain ⟨⟨-, hor⟩, -, hand⟩ := h.names hk
    have hmem : ∀ x ∈ k.names, x ∈ usedNames g ∨ x ∈ ks.flatMap Split.names := fun x hx =>
      .inr (mem_flatMap.mpr ⟨k, hk, hx⟩)
    have hops := operands_sub (evalGraph rt { g with node := ms, valueInfo := vi } e) k hor hand
    rw [h.eval_after e vi (hmem _ (by simp [Split.names])), h.eval_after e vi (hmem _ (by simp [Split.names]))] at hops
    rcases h.result e hk with ⟨-, hnone, -⟩ | ⟨t, x, y, s, -, -, horV, handV⟩
    · intro t a b hab
      rw [hops, hnone] at hab
      cases hab
    · rw [horV, handV] at hops
      exact noOverflow_or_and hops

end Onnxsim.Bitwise.Exactness
