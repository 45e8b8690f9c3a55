import Onnxsim.Fold.FoldsExactly
import Onnxsim.Fold.Meaning

namespace Onnxsim.Fold.Agreement

open List Lib.Results Lib.Bisection Proto.Graphs Proto.Models
open Fold.Partition RunOps FoldConstant GraphFold
open Semantics Partitioned Resolution RunOpsExact
open Closure Evaluability Readiness FoldRuns
open Records FoldsExactly Meaning

/-- The graph a model is imported to, as far as names go; the types of its values are its own. -/
structure Imports (m : Model) (g : IRGraph) : Prop where
  node : g.node = m.node
  initializer : g.initializer = m.initializer
  opsetImport : g.opsetImport = m.opsetImport

/-- A node needs an impure result that is the last output of a node outside its group. -/
def Cut (m : Model) (p : ConstantNodePartition) (group : List Ref) (r : Ref) : Prop :=
  ∃ y, Needs m p r.2 y ∧ y ∈ p.impureOutputs ∧ Forgotten p y ∧ y ∉ outputNames group

variable {ev : Node → Prop} {m : Model} {p : ConstantNodePartition} {g : IRGraph} {executor : Executor}
  (hv : Valid m) (hp : ClosureInv m m.node p) (hg : Imports m g) (hexec : Exact ev executor)

abbrev kept (p : ConstantNodePartition) (y : String) : Prop := ¬ Forgotten p y

include hg in
theorem deferred_eq : deferredProducersOnGraph g p = deferredProducers m p := by
  rw [deferredProducersOnGraph, hg.node]
  rfl

include hg in
theorem constants_eq : constantNodeProducersOnGraph g = constantNodeProducers m := by
  rw [constantNodeProducersOnGraph, hg.node]
  rfl

variable {l seen ran u : List Ref} {r : Ref} {st st' : GraphFoldState}

theorem outputCount_of_mem (hnodup : (l.map Prod.fst).Nodup) (hr : r ∈ l) :
    outputCount l r.1 = r.2.output.length := by
  have hfind : l.find? (fun a => a.1 = r.1) = some r := by
    induction l with
    | nil => cases hr
    | cons a l ih =>
      obtain ⟨hnot, hrest⟩ := nodup_cons.mp hnodup
      rcases mem_cons.mp hr with rfl | hr
      · simp
      · have hne : a.1 ≠ r.1 := fun he => hnot (List.mem_map.mpr ⟨r, hr, he.symm⟩)
        rw [find?_cons_of_neg (by simpa using hne)]
        exact ih hrest hr
  rw [outputCount, hfind]

theorem slice_keys_nodup (hpre : seen ++ l <+: keyed .const p.constNodes) : (l.map Prod.fst).Nodup := by
  have hsub : l.Sublist (keyed .const p.constNodes) :=
    (sublist_append_right seen l).trans hpre.sublist
  refine List.Nodup.sublist (hsub.map Prod.fst) ?_
  rw [keyed_fst]
  exact nodup_range.map fun i j hij => Key.const.inj hij

include hv hp hexec in
theorem runGroupOnGraph_sound (hinv : RunInv ev m p (kept p) seen st.toFoldState ran)
    (hpre : seen ++ l <+: keyed .const p.constNodes)
    (h : runGroupOnGraph executor g (deferredProducers m p) p.impureOutputs l st = .ok st') :
    (∀ r ∈ l, Evaluable ev m r.2) ∧
      RunInv ev m p (kept p) (seen ++ l) st'.toFoldState (ran ++ l) := by
  obtain ⟨outs, houts, hst'⟩ := bind_eq_ok h
  cases hst'
  have heval := evaluable_of_slice hv hp hinv hpre
    ((runOpsOnGraph_ok_iff hexec g (shape_slice hv hp hinv hpre)).mp ⟨outs, houts⟩)
  obtain ⟨tensors, hlen, rfl⟩ := runOpsOnGraph_outputs hexec houts
  have hnodup := slice_keys_nodup hpre
  obtain ⟨hl, hptr⟩ := lookups_splice hv hp.sublist hlen hnodup
    (fun r hr => outputCount_of_mem hnodup hr) (fun r hr => mem_keyed_const (slice_mem hpre hr))
    hinv.lookups hinv.pointers
  exact ⟨heval, hl, hptr, ran_append hinv heval⟩

include hv hp hexec in
theorem runGroupOnGraph_ok (hinv : Exactly ev m p (kept p) seen st.toFoldState ran)
    (hpre : seen ++ l <+: keyed .const p.constNodes) (heval : ∀ r ∈ l, Evaluable ev m r.2)
    (hcut : ∀ r ∈ l, ¬ Cut m p l r) :
    ∃ st', runGroupOnGraph executor g (deferredProducers m p) p.impureOutputs l st = .ok st' := by
  have hready := ready_of_slice hv hp hinv.1 hpre hexec.constant hinv.2 heval
    (fun r hr y hy himp hnot => by
      by_contra hint
      exact hcut r hr ⟨y, hy, himp, not_not.mp hnot, hint⟩)
  obtain ⟨outs, houts⟩ := (runOpsOnGraph_ok_iff hexec g (shape_slice hv hp hinv.1 hpre)).mpr hready
  rw [runGroupOnGraph, ok_bind houts]
  exact ⟨_, rfl⟩

include hv hp hexec in
theorem runGroupOnGraph_cut (hinv : RunInv ev m p (kept p) seen st.toFoldState ran)
    (hpre : seen ++ l <+: keyed .const p.constNodes) (hr : r ∈ l) (hcut : Cut m p l r) :
    runGroupOnGraph executor g (deferredProducers m p) p.impureOutputs l st ≠ .ok st' := by
  intro h
  obtain ⟨outs, houts, -⟩ := bind_eq_ok h
  have hready := (runOpsOnGraph_ok_iff hexec g (shape_slice hv hp hinv hpre)).mp ⟨outs, houts⟩
  obtain ⟨y, hy, himp, hforgot, hint⟩ := hcut
  exact not_ready_of_forgotten hv hp hinv.lookups (fun a ha => mem_keyed_const (slice_mem hpre ha)) hy
    himp (not_not.mpr hforgot) hint (hready r hr)

theorem Cut.of_subset {v : List Ref} (hvu : v.Sublist u) (h : Cut m p u r) : Cut m p v r := by
  obtain ⟨y, hy, himp, hforgot, hint⟩ := h
  refine ⟨y, hy, himp, hforgot, fun hmem => hint ?_⟩
  obtain ⟨a, ha, hya⟩ := mem_outputs hmem
  exact mem_flatMap.mpr ⟨a, hvu.subset ha, hya⟩

include hg in
theorem foldedOnGraph_eq : foldedOnGraph executor g p =
    (runAll (runGroupOnGraph executor g (deferredProducers m p) p.impureOutputs) (graphBatches g p)
      { initializer := m.initializer, constants := constantNodeProducers m }).2 := by
  rw [foldedOnGraph, deferred_eq hg, constants_eq hg, hg.initializer]

include hv hp hg hexec in
theorem mem_foldedOnGraph_iff
    (hcut : ∀ b ∈ graphBatches g p, ∀ u, Piece (fun r : Ref => Evaluable ev m r.2) b u → ∀ r ∈ u, ¬ Cut m p u r)
    (hr : r ∈ keyed .const p.constNodes) :
    r ∈ foldedOnGraph executor g p ↔ Evaluable ev m r.2 := by
  rw [foldedOnGraph_eq hg]
  have hall : (fun seen (s : GraphFoldState × List Ref) =>
      Exactly ev m p (kept p) seen s.1.toFoldState s.2) (graphBatches g p).flatten
      (runAll (runGroupOnGraph executor g (deferredProducers m p) p.impureOutputs) (graphBatches g p)
        { initializer := m.initializer, constants := constantNodeProducers m }) := by
    refine runAll_exact (fun r : Ref => Evaluable ev m r.2)
      (fun seen (s : GraphFoldState × List Ref) => Exactly ev m p (kept p) seen s.1.toFoldState s.2)
      (fun seen l s s' hpre hinv hrun => ?_) (fun seen a s _ hinv hbad => hinv.skip hbad)
      (fun b hb u hu seen s hpre hinv => ?_) ⟨initial_runInv ev m p _ hv, by simp⟩
    · rw [graphBatches_flatten] at hpre
      obtain ⟨st', hst', rfl⟩ := mem_traced hrun
      obtain ⟨heval, hnew⟩ := runGroupOnGraph_sound hv hp hexec hinv.1 hpre hst'
      exact ⟨heval, hinv.append hnew⟩
    · rw [graphBatches_flatten] at hpre
      obtain ⟨st', hst'⟩ := runGroupOnGraph_ok (g := g) hv hp hexec hinv hpre hu.good (hcut b hb u hu)
      refine ⟨(st', s.2 ++ u), ?_⟩
      rw [traced, hst']
      rfl
  rw [graphBatches_flatten] at hall
  exact ⟨fun h => (hall.1.ran r h).2, hall.2 r hr⟩

include hv hp hg hexec in
theorem not_mem_foldedOnGraph {b : List Ref} (hb : b ∈ graphBatches g p)
    (hu : Piece (fun r : Ref => Evaluable ev m r.2) b u) (hr : r ∈ u) (hcut : Cut m p u r) :
    r ∉ foldedOnGraph executor g p := by
  rw [foldedOnGraph_eq hg]
  refine runAll_stuck (fun r : Ref => Evaluable ev m r.2)
    (fun seen (s : GraphFoldState × List Ref) => RunInv ev m p (kept p) seen s.1.toFoldState s.2)
    (fun seen l s s' hpre hinv hrun => ?_) (fun seen a s _ hinv => hinv.skip a) hb hu hr
    (fun v hvu hrv seen s hpre hinv s' hrun => ?_) ?_ (initial_runInv ev m p _ hv)
  · rw [graphBatches_flatten] at hpre
    obtain ⟨st', hst', rfl⟩ := mem_traced hrun
    exact runGroupOnGraph_sound hv hp hexec hinv hpre hst'
  · rw [graphBatches_flatten] at hpre
    obtain ⟨st', hst', rfl⟩ := mem_traced hrun
    exact runGroupOnGraph_cut hv hp hexec hinv hpre hrv (hcut.of_subset hvu) hst'
  · rw [graphBatches_flatten]
    exact keyed_nodup _

variable {n : Node} {cfg : Config} {registry : Registry} {opsets : List (String × Int)}
  {large large' : Node → Except String Bool} {p₀ : ConstantNodePartition} {ns : List Node}

theorem constNames_mono (h : ns.foldlM (partitionStep registry opsets large) p₀ = .ok p) :
    ∀ y ∈ p₀.constNames, y ∈ p.constNames := by
  refine foldlM_induct (I := fun _ q => ∀ y ∈ p₀.constNames, y ∈ q.constNames)
    (fun n _ q q' hq hstep y hy => ?_) (fun _ hy => hy) h
  have hmem := hq y hy
  rcases partitionStep_cases hstep with rfl | ⟨-, rfl⟩ | ⟨-, rfl | ⟨-, rfl⟩ | ⟨-, rfl⟩⟩
  · exact hmem
  all_goals exact mem_append_left _ hmem

theorem foldable_mono {names names' : List String} (hsub : ∀ y ∈ names, y ∈ names')
    (h : foldable registry opsets names n = true) :
    foldable registry opsets names' n = true := by
  rw [foldable, Bool.and_eq_true] at h ⊢
  refine ⟨h.1, ?_⟩
  rw [List.all_eq_true] at h ⊢
  intro y hy
  exact contains_iff_mem.mpr (hsub y (contains_iff_mem.mp (h.2 y hy)))

theorem partitionStep_congr (h : foldable registry opsets p.constNames n = true → large n = large' n) :
    partitionStep registry opsets large p n = partitionStep registry opsets large' p n := by
  rw [partitionStep, partitionStep]
  by_cases hf : foldable registry opsets p.constNames n = true
  · rw [h hf]
  · simp only [hf]
    rfl

theorem foldlM_partition_congr (hrun : ns.foldlM (partitionStep registry opsets large) p₀ = .ok p)
    (h : ∀ n ∈ ns, foldable registry opsets p.constNames n = true → large n = large' n) :
    ns.foldlM (partitionStep registry opsets large') p₀ = .ok p := by
  induction ns generalizing p₀ with
  | nil => exact hrun
  | cons n ns ih =>
    have hfirst : partitionStep registry opsets large p₀ n = partitionStep registry opsets large' p₀ n :=
      partitionStep_congr fun hf =>
        h n mem_cons_self (foldable_mono (constNames_mono hrun) hf)
    rw [foldlM_cons] at hrun ⊢
    obtain ⟨p₁, hp₁, hrest⟩ := bind_eq_ok hrun
    rw [hfirst] at hp₁
    rw [ok_bind hp₁]
    exact ih hrest fun a ha => h a (mem_cons_of_mem _ ha)

theorem partitions_agree (hg : Imports m g) (h : getConstantNodes cfg registry m = .ok p)
    (hlarge : ∀ n ∈ m.node, foldable registry m.opsetImport p.constNames n = true →
      produceLargeTensor m n cfg.tensorSizeThreshold =
        .ok (produceLargeTensorOnGraph g n cfg.tensorSizeThreshold)) :
    getConstantNodesOnGraph cfg registry g = .ok p := by
  rw [getConstantNodesOnGraph, hg.node, hg.opsetImport, hg.initializer]
  exact foldlM_partition_congr h hlarge

/-- The two folders fold the same nodes exactly if no piece of a batch, halved until it can be
evaluated, is cut off from an impure result it needs. -/
theorem folds_agree_iff {cfg : Config} {registry : Registry} {ev : Node → Prop} {executor : Executor}
    {m : Model} {g : IRGraph} {p : ConstantNodePartition} (hexec : Exact ev executor) (hv : Valid m)
    (hg : Imports m g) (hpart : getConstantNodes cfg registry m = .ok p)
    (hlarge : ∀ n ∈ m.node, foldable registry m.opsetImport p.constNames n = true →
      produceLargeTensor m n cfg.tensorSizeThreshold =
        .ok (produceLargeTensorOnGraph g n cfg.tensorSizeThreshold)) :
    getConstantNodesOnGraph cfg registry g = .ok p ∧
      (∀ r ∈ keyed .const p.constNodes, r ∈ foldedNodes executor m p ↔ Evaluable ev m r.2) ∧
      ((∀ r ∈ keyed .const p.constNodes,
          r ∈ foldedOnGraph executor g p ↔ r ∈ foldedNodes executor m p) ↔
        ∀ b ∈ graphBatches g p, ∀ u, Piece (fun r : Ref => Evaluable ev m r.2) b u →
          ∀ r ∈ u, ¬ Cut m p u r) := by
  have hp := getConstantNodes_closure hv hpart
  have hproto : ∀ r ∈ keyed .const p.constNodes,
      (r ∈ foldedNodes executor m p ↔ Evaluable ev m r.2) :=
    fun r hr => mem_foldedNodes_iff hv hp hexec hr
  refine ⟨partitions_agree hg hpart hlarge, hproto, fun hsame b hb u hu r hr hcut => ?_,
    fun hcut r hr => ?_⟩
  · have hmem : r ∈ keyed .const p.constNodes := by
      rw [← graphBatches_flatten g p]
      exact mem_flatten.mpr ⟨b, hb, hu.sublist.subset hr⟩
    have hfolded := (hsame r hmem).mpr ((hproto r hmem).mpr (hu.good r hr))
    exact not_mem_foldedOnGraph hv hp hg hexec hb hu hr hcut hfolded
  · rw [hproto r hr]
    exact mem_foldedOnGraph_iff hv hp hg hexec hcut hr

def evaluates (n : Node) : Bool := ["Constant", "Identity"].contains n.opType

/-- It knows no operator but Constant and Identity, and the only tensor below is zero. -/
def zeroExecutor : Executor := fun sub _ =>
  if sub.node.all evaluates then .ok (sub.output.map fun _ => zeros) else .error "not implemented"

theorem zeroExecutor_exact : Exact (fun n => evaluates n = true) zeroExecutor where
  runs_iff sub feeds := by
    rw [zeroExecutor, ← List.all_eq_true]
    split
    · next h => exact ⟨fun _ => h, fun _ => ⟨_, rfl⟩⟩
    · next h => exact ⟨fun ⟨_, h'⟩ => absurd h' (by simp), fun h' => absurd h' h⟩
  length sub feeds outs h := by
    rw [zeroExecutor] at h
    split at h
    · cases h
      exact length_map _
    · cases h
  name n := by cases n; rfl
  constant _ _ := rfl

def onlyZeros (m : Model) : IRGraph :=
  ⟨m.irVersion, m.opsetImport, m.node, m.initializer, fun _ => ⟨1, some [some 1, some 1, some 1]⟩⟩

theorem onlyZeros_imports (m : Model) : Imports m (onlyZeros m) := ⟨rfl, rfl, rfl⟩

/-- Two nodes to be folded, the second from the result of the first. -/
def twoStages : Model where
  irVersion := 8
  opsetImport := [("", 20)]
  node := [constantNode "c" zeros, .mk "" "" "Identity" ["c"] ["a"] [],
    .mk "" "" "Identity" ["a"] ["b"] []]
  input := []
  initializer := []
  output := ["b"]
  valueInfo := []

def twoStagesPartition : ConstantNodePartition where
  constNodes := [.mk "" "" "Identity" ["c"] ["a"] [], .mk "" "" "Identity" ["a"] ["b"] []]
  impureOutputs := ["a", "b"]
  constNames := ["", "c", "a", "b"]

theorem twoStages_valid : Valid twoStages :=
  ⟨by decide, by decide, by decide, by decide, by decide, by decide⟩

theorem twoStages_evaluable (hn : n ∈ twoStages.node) : Evaluable (fun n => evaluates n = true) twoStages n := by
  have hc : Evaluable (fun n => evaluates n = true) twoStages (constantNode "c" zeros) :=
    .intro rfl (by simp [constantNode, Node.input])
  have ha : Evaluable (fun n => evaluates n = true) twoStages (.mk "" "" "Identity" ["c"] ["a"] []) := by
    refine .intro rfl fun y hy _ a ha hya => ?_
    simp only [twoStages, mem_cons, not_mem_nil, or_false] at ha
    rcases ha with rfl | rfl | rfl
    · exact hc
    all_goals simp_all [Node.input, Node.output]
  simp only [twoStages, mem_cons, not_mem_nil, or_false] at hn
  rcases hn with rfl | rfl | rfl
  · exact hc
  · exact ha
  · refine .intro rfl fun y hy _ a ha' hya => ?_
    simp only [twoStages, mem_cons, not_mem_nil, or_false] at ha'
    rcases ha' with rfl | rfl | rfl
    · exact hc
    · exact ha
    · simp_all [Node.input, Node.output]

theorem twoStages_agree :
    getConstantNodes foldConfig anyOperator twoStages = .ok twoStagesPartition ∧
      ∀ r ∈ keyed .const twoStagesPartition.constNodes,
        r ∈ foldedOnGraph zeroExecutor (onlyZeros twoStages) twoStagesPartition ↔
          r ∈ foldedNodes zeroExecutor twoStages twoStagesPartition := by
  have hlarge : ∀ n ∈ twoStages.node, foldable anyOperator twoStages.opsetImport
      twoStagesPartition.constNames n = true → produceLargeTensor twoStages n 1024 =
        .ok (produceLargeTensorOnGraph (onlyZeros twoStages) n 1024) := by
    intro n hn _
    simp only [twoStages, mem_cons, not_mem_nil, or_false] at hn
    rcases hn with rfl | rfl | rfl <;> rfl
  have hpart : getConstantNodes foldConfig anyOperator twoStages = .ok twoStagesPartition := rfl
  refine ⟨hpart, (folds_agree_iff zeroExecutor_exact twoStages_valid (onlyZeros_imports _) hpart
    hlarge).2.2.mpr fun b hb u hu r hr hcut => ?_⟩
  -- every node can be evaluated, so the only batch is not halved
  have hwhole : u = b := by
    have hall : ∀ r ∈ b, Evaluable (fun n => evaluates n = true) twoStages r.2 := by
      intro r hr
      have hmem : r ∈ keyed .const twoStagesPartition.constNodes := by
        rw [← graphBatches_flatten (onlyZeros twoStages) twoStagesPartition]
        exact mem_flatten.mpr ⟨b, hb, hr⟩
      exact twoStages_evaluable (mem_cons_of_mem _ (mem_keyed_const hmem))
    cases hu with
    | whole _ _ => rfl
    | low hbad _ _ =>
      obtain ⟨a, ha, hnot⟩ := hbad
      exact absurd (hall a ha) hnot
    | high hbad _ _ =>
      obtain ⟨a, ha, hnot⟩ := hbad
      exact absurd (hall a ha) hnot
  obtain ⟨y, -, himp, -, hint⟩ := hcut
  have hbatch : b = keyed .const twoStagesPartition.constNodes := mem_singleton.mp hb
  rw [hwhole, hbatch] at hint
  exact hint himp

/-- A node between the two that cannot be evaluated: the batch is halved in front of it. -/
def splitStages : Model where
  irVersion := 8
  opsetImport := [("", 20)]
  node := [constantNode "c" zeros, .mk "" "" "Identity" ["c"] ["a"] [], .mk "" "" "DFT" ["c"] ["s"] [],
    .mk "" "" "Identity" ["a"] ["b"] []]
  input := []
  initializer := []
  output := ["s", "b"]
  valueInfo := []

theorem splitStages_valid : Valid splitStages :=
  ⟨by decide, by decide, by decide, by decide, by decide, by decide⟩

/-- The last node is folded in the model and not in the graph. -/
theorem splitStages_disagree : Exact (fun n => evaluates n = true) zeroExecutor ∧ Valid splitStages ∧
    Imports splitStages (onlyZeros splitStages) ∧
    ∃ p, getConstantNodes foldConfig anyOperator splitStages = .ok p ∧
      getConstantNodesOnGraph foldConfig anyOperator (onlyZeros splitStages) = .ok p ∧
      (foldedNodes zeroExecutor splitStages p).map Prod.fst = [.const 0, .const 2] ∧
      (foldedOnGraph zeroExecutor (onlyZeros splitStages) p).map Prod.fst = [.const 0] :=
  ⟨zeroExecutor_exact, splitStages_valid, onlyZeros_imports _, _, rfl, rfl, rfl, rfl⟩

end Onnxsim.Fold.Agreement
