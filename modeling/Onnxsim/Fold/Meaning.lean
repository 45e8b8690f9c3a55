import Onnxsim.Fold.Preservation

namespace Onnxsim.Fold.Spliced

open List Lib.Dataflow Lib.Results Proto.Graphs Proto.Models
open Fold.Partition RunOps FoldConstant Semantics
open Fold.Order SubModels RunOpsSound Partitioned
open FoldRuns Preservation

variable {V Ω : Type} {registry : Registry} {sem : OpSemantics V Ω registry} {m : Model}
  {p : ConstantNodePartition} {st : FoldState} {folded : List Node} {values : List (String × Tensor)}

def result (m : Model) (st : FoldState) : Model := eliminateUnusedInitializer (spliced m st)

def outs (ns : List Node) : List String := ns.flatMap fun n => nonempty n.output

variable {n : Node} {y : String} {o : String × Tensor}

theorem mem_rebuild : n ∈ rebuildNodeList st m.node ↔ n ∈ st.newConstantNodes ∨ n ∈ kept m st := by
  simp only [rebuildNodeList, kept, mem_append, mem_filter]
  cases isConstantOp n <;> simp

theorem fresh_form (h : FoldInv sem m p st folded values) (hn : n ∈ st.newConstantNodes) :
    ∃ o ∈ values, p.impureOutputs.contains o.1 = true ∧ n = makeConstantNode o.1 o.2 := by
  rw [h.fresh] at hn
  obtain ⟨o, ho, rfl⟩ := List.mem_map.mp hn
  obtain ⟨hov, hi⟩ := mem_filter.mp ho
  exact ⟨o, hov, hi, rfl⟩

theorem used_spliced (h : FoldInv sem m p st folded values) (hy : y ∈ usedNames (spliced m st)) :
    y ∈ usedNodes m.node ++ m.output ∨ y ∈ m.inputNames := by
  rw [usedNames, mem_append, mem_append] at hy
  rcases hy with (hy | hy) | hy
  · obtain ⟨n, hn, hyn⟩ := mem_usedNodes.mp hy
    rcases mem_rebuild.mp hn with hn | hn
    · obtain ⟨o, -, -, rfl⟩ := fresh_form h hn
      exact absurd hyn (by simp [makeConstantNode, Node.used, usedAttrs, Attr.used, nonempty])
    · exact .inl (mem_append_left _ (mem_usedNodes.mpr ⟨n, (mem_filter.mp hn).1, hyn⟩))
  · exact .inl (mem_append_right _ hy)
  · exact .inr hy

theorem nonempty_used_spliced (hv : Valid m) (h : FoldInv sem m p st folded values)
    (hy : y ∈ usedNames (spliced m st)) : y ≠ "" := by
  rintro rfl
  rcases used_spliced h hy with hy | hy
  · rcases mem_append.mp hy with hy | hy
    · exact hv.nonempty_used hy
    · rcases mem_append.mp (hv.outputs "" hy) with hd | hd
      · exact hv.nonempty_defs hd
      · obtain ⟨n, -, hn⟩ := mem_flatMap.mp hd
        exact (mem_nonempty.mp hn).2 rfl
  · exact hv.nonempty_defs (mem_append_left _ hy)

theorem mem_result_initializer : o ∈ (result m st).initializer ↔
    o ∈ st.initializer ∧ o.1 ∈ usedNames (spliced m st) := by
  rw [result, eliminateUnusedInitializer, mem_filter, contains_iff_mem]
  rfl

theorem defs_of_needed (h : FoldInv sem m p st folded values) (hy : y ∈ defs m) (hused : y ∈ usedNames (spliced m st)) :
    y ∈ defs (result m st) := by
  rcases mem_append.mp hy with hy | hy
  · exact mem_append_left _ hy
  · obtain ⟨o, ho, rfl⟩ := List.mem_map.mp hy
    refine mem_append_right _ (List.mem_map.mpr ⟨o, mem_result_initializer.mpr ⟨?_, hused⟩, rfl⟩)
    rw [h.initializer]
    exact mem_append_left _ ho

theorem defined_of_value (h : FoldInv sem m p st folded values) (ho : o ∈ values)
    (hused : o.1 ∈ usedNames (spliced m st)) (hne : o.1 ≠ "") :
    o.1 ∈ defs (result m st) ++ outs st.newConstantNodes := by
  by_cases hi : p.impureOutputs.contains o.1 = true
  · refine mem_append_right _ (mem_flatMap.mpr ⟨makeConstantNode o.1 o.2, ?_, ?_⟩)
    · rw [h.fresh]
      exact List.mem_map.mpr ⟨o, mem_filter.mpr ⟨ho, hi⟩, rfl⟩
    · exact mem_nonempty.mpr ⟨mem_singleton.mpr rfl, hne⟩
  · refine mem_append_left _ (mem_append_right _ (List.mem_map.mpr ⟨o, ?_, rfl⟩))
    refine mem_result_initializer.mpr ⟨?_, hused⟩
    rw [h.initializer]
    exact mem_append_right _ (mem_filter.mpr ⟨ho, by simpa using hi⟩)

variable (hv : Valid m) (hsub : folded.Sublist p.constNodes) (hp : PartitionInv registry m m.node p)
  (h : FoldInv sem m p st folded values) (hclash : ¬ OmittedClash m p)

include hv hsub hp h hclash in
theorem defined_of_removed (hn : n ∈ m.node) (hf : isFolded st.foldedOutputs n = true) (hy : y ∈ nonempty n.output)
    (hused : y ∈ usedNames (spliced m st)) :
    y ∈ defs (result m st) ++ outs st.newConstantNodes := by
  have hneeded : y ∈ usedNodes m.node ++ m.output := by
    refine (used_spliced h hused).resolve_right fun hin => ?_
    exact (nodup_append.mp hv.single).2.2 y (mem_append_left _ hin) y
      (mem_flatMap.mpr ⟨n, hn, hy⟩) rfl
  rcases removed_cases hv hsub hp h hclash hn hf with hfold | hnone
  · obtain ⟨t, ht⟩ := value_of_folded h hfold (mem_nonempty.mp hy).1
    exact defined_of_value h ht hused (mem_nonempty.mp hy).2
  · exact absurd hneeded (hnone y hy)

theorem kept_constant_reads (hv : Valid m) (hn : n ∈ (kept m st).filter isConstantOp) : n.reads = [] := by
  obtain ⟨hk, hc⟩ := mem_filter.mp hn
  obtain ⟨hin, hsg⟩ := hv.constants n (mem_filter.mp hk).1 hc
  rw [reads_of_no_subgraph hsg, hin]
  rfl

theorem fresh_reads (h : FoldInv sem m p st folded values) (hn : n ∈ st.newConstantNodes) : n.reads = [] := by
  obtain ⟨o, -, -, rfl⟩ := fresh_form h hn
  rfl

include hv hsub hp h hclash in
theorem result_sorted : Sorted (defs (result m st)) (result m st).node := by
  have hnode : (result m st).node = st.newConstantNodes ++ (kept m st).filter isConstantOp ++
      m.node.filter fun n => !isFolded st.foldedOutputs n && !isConstantOp n := by
    rw [show (result m st).node = rebuildNodeList st m.node from rfl, rebuildNodeList, kept]
    simp only [List.filter_filter]
    congr 1
    exact filter_congr fun n _ => Bool.and_comm _ _
  rw [hnode]
  refine sorted_append (sorted_append ?_ ?_) ?_
  · exact sorted_of_no_reads (fun n hn => fresh_reads h hn) _
  · exact sorted_of_no_reads (fun n hn => kept_constant_reads hv hn) _
  · refine sorted_filter (· ∈ usedNames (spliced m st)) hv.sorted (fun y hy hu => ?_)
      (fun n hn hk y hy hu => ?_) (fun n hn hk y hy => ?_)
    · exact mem_append_left _ (defs_of_needed h hy hu)
    · rw [flatMap_append, ← append_assoc, mem_append]
      by_cases hf : isFolded st.foldedOutputs n = true
      · exact .inl (defined_of_removed hv hsub hp h hclash hn hf hy hu)
      · rw [Bool.not_eq_true] at hf
        have hc : isConstantOp n = true := by simpa [hf] using hk
        refine .inr (mem_flatMap.mpr ⟨n, mem_filter.mpr ⟨mem_filter.mpr ⟨hn, ?_⟩, hc⟩, hy⟩)
        rw [hf]
        rfl
    · refine mem_append_left _ (mem_append_left _ (mem_usedNodes.mpr ⟨n, ?_, ?_⟩))
      · have hkept : n ∈ kept m st := mem_filter.mpr ⟨hn, (Bool.and_eq_true _ _ ▸ hk).1⟩
        exact mem_rebuild.mpr (.inr hkept)
      · exact Node.reads_subset_used n y hy

include hv hsub hp h hclash in
theorem result_outputs : ∀ o ∈ (result m st).output,
    o ∈ defs (result m st) ++ outs (result m st).node := by
  intro o ho
  have hused : o ∈ usedNames (spliced m st) := mem_append_left _ (mem_append_right _ ho)
  have hfresh : ∀ y ∈ outs st.newConstantNodes, y ∈ outs (result m st).node := by
    intro y hy
    obtain ⟨n, hn, hyn⟩ := mem_flatMap.mp hy
    exact mem_flatMap.mpr ⟨n, mem_rebuild.mpr (.inl hn), hyn⟩
  rcases mem_append.mp (hv.outputs o ho) with hd | hd
  · exact mem_append_left _ (defs_of_needed h hd hused)
  · obtain ⟨n, hn, hon⟩ := mem_flatMap.mp hd
    by_cases hf : isFolded st.foldedOutputs n = true
    · exact mem_append.mpr ((mem_append.mp
        (defined_of_removed hv hsub hp h hclash hn hf hon hused)).imp_right (hfresh o))
    · refine mem_append_right _ (mem_flatMap.mpr ⟨n, mem_rebuild.mpr (.inr ?_), hon⟩)
      exact mem_filter.mpr ⟨hn, by simpa using hf⟩

end Onnxsim.Fold.Spliced

namespace Onnxsim.Fold.FoldCorrect

open List Lib.Dataflow Lib.Results Proto.Graphs Proto.Models
open Fold.Partition RunOps FoldConstant Semantics
open Fold.Order SubModels RunOpsSound Partitioned
open FoldRuns Preservation Spliced

variable {V Ω : Type} {registry : Registry} {sem : OpSemantics V Ω registry} {m : Model}
  {p : ConstantNodePartition} {st : FoldState} {folded : List Node} {values : List (String × Tensor)}

theorem outs_folded (h : FoldInv sem m p st folded values) :
    outs folded = nonempty (values.map Prod.fst) := by
  rw [h.names, outs, nonempty, filter_flatMap]
  rfl

theorem outs_fresh (h : FoldInv sem m p st folded values) : outs st.newConstantNodes =
    nonempty ((values.filter fun o => p.impureOutputs.contains o.1).map Prod.fst) := by
  rw [h.fresh, outs, flatMap_map]
  induction values.filter fun o => p.impureOutputs.contains o.1 with
  | nil => rfl
  | cons o os ih =>
    rw [flatMap_cons, ih, map_cons, nonempty, nonempty]
    by_cases ho : o.1 = "" <;> simp [makeConstantNode, Node.output, nonempty, ho]

theorem outs_perm {as bs : List Node} (h : as.Perm bs) : (outs as).Perm (outs bs) := h.flatMap_right _

theorem count_fresh_add_pure (h : FoldInv sem m p st folded values) (y : String) :
    (outs st.newConstantNodes).count y +
        (nonempty ((values.filter fun o => !p.impureOutputs.contains o.1).map Prod.fst)).count y =
      (outs folded).count y := by
  have hperm : ((values.filter fun o => p.impureOutputs.contains o.1) ++
      values.filter fun o => !p.impureOutputs.contains o.1).Perm values :=
    filter_append_perm _ _
  have hnames := (hperm.map Prod.fst).filter fun y => y ≠ ""
  rw [map_append, filter_append] at hnames
  rw [outs_fresh h, outs_folded h, ← count_append]
  exact hnames.count_eq y

theorem count_kept (m : Model) (st : FoldState) (y : String) : (outs ((kept m st).filter isConstantOp)).count y +
    (outs ((kept m st).filter fun n => !isConstantOp n)).count y = (outs (kept m st)).count y := by
  rw [← count_append, outs, outs, ← flatMap_append]
  exact (outs_perm (filter_append_perm _ _)).count_eq y

theorem nodup_kept_folded (hv : Valid m) (hsub : folded.Sublist p.constNodes)
    (hp : PartitionInv registry m m.node p) (h : FoldInv sem m p st folded values) :
    (defs m ++ (outs (kept m st) ++ outs folded)).Nodup := by
  have hkept : (kept m st).Sublist m.node := filter_sublist
  have hfolded : folded.Sublist m.node := hsub.trans hp.sublist
  obtain ⟨hdefs, houts, hdisj⟩ := nodup_append.mp hv.single
  refine nodup_append.mpr ⟨hdefs, nodup_append.mpr ⟨?_, ?_, ?_⟩, ?_⟩
  · exact houts.sublist (hkept.flatMap _)
  · exact houts.sublist (hfolded.flatMap _)
  · rintro y hk _ hf rfl
    obtain ⟨a, ha, hya⟩ := mem_flatMap.mp hk
    obtain ⟨c, hc, hyc⟩ := mem_flatMap.mp hf
    have hac := eq_of_common_output hv (hkept.subset ha) (hfolded.subset hc) hya hyc
    have hne : c.output ≠ [] := ne_nil_of_mem (mem_nonempty.mp hyc).1
    have hcf := isFolded_of_mem h hc hne
    rw [← hac] at hcf
    have hnot := (mem_filter.mp ha).2
    rw [hcf] at hnot
    cases hnot
  · intro y hy z hz
    refine hdisj y hy z ?_
    rcases mem_append.mp hz with hz | hz
    · exact (hkept.flatMap _).subset hz
    · exact (hfolded.flatMap _).subset hz

theorem count_result_initializer (hv : Valid m) (h : FoldInv sem m p st folded values) (y : String) :
    (result m st).initializerNames.count y ≤ m.initializerNames.count y +
      (nonempty ((values.filter fun o => !p.impureOutputs.contains o.1).map Prod.fst)).count y := by
  have hsplit : (result m st).initializer =
      (m.initializer.filter fun o => (usedNames (spliced m st)).contains o.1) ++
        (values.filter fun o => !p.impureOutputs.contains o.1).filter
          fun o => (usedNames (spliced m st)).contains o.1 := by
    rw [← filter_append, ← h.initializer]
    rfl
  have hold : ((m.initializer.filter fun o => (usedNames (spliced m st)).contains o.1).map
      Prod.fst).Sublist m.initializerNames := filter_sublist.map _
  have hnew : (((values.filter fun o => !p.impureOutputs.contains o.1).filter
      fun o => (usedNames (spliced m st)).contains o.1).map Prod.fst).Sublist
        (nonempty ((values.filter fun o => !p.impureOutputs.contains o.1).map Prod.fst)) := by
    rw [nonempty, List.filter_map]
    refine List.Sublist.map _ (monotone_filter_right _ fun o ho => ?_)
    exact decide_eq_true (nonempty_used_spliced hv h (contains_iff_mem.mp ho))
  rw [Model.initializerNames, hsplit, map_append, count_append]
  exact Nat.add_le_add (hold.count_le y) (hnew.count_le y)

theorem result_single (hv : Valid m) (hsub : folded.Sublist p.constNodes)
    (hp : PartitionInv registry m m.node p) (h : FoldInv sem m p st folded values) :
    (defs (result m st) ++ outs (result m st).node).Nodup := by
  refine nodup_iff_count_le_one.mpr fun y => ?_
  have hone := nodup_iff_count_le_one.mp (nodup_kept_folded hv hsub hp h) y
  have hnode : outs (result m st).node = outs st.newConstantNodes ++
      outs ((kept m st).filter isConstantOp) ++ outs ((kept m st).filter fun n => !isConstantOp n) := by
    rw [outs, outs, outs, outs, ← flatMap_append, ← flatMap_append]
    rfl
  have hinit := count_result_initializer hv h y
  have hfresh := count_fresh_add_pure h y
  have hk := count_kept m st y
  have hin : (result m st).inputNames = m.inputNames := rfl
  rw [hnode]
  simp only [defs, hin, count_append] at hone ⊢
  omega

end Onnxsim.Fold.FoldCorrect

namespace Onnxsim.Fold.Meaning

open List Lib.Dataflow Lib.Results Proto.Graphs Proto.Models
open Fold.Partition RunOps FoldConstant Semantics
open SubModels RunOpsSound Partitioned
open FoldRuns Preservation Spliced FoldCorrect

section

variable {V Ω : Type} {registry : Registry} {sem : OpSemantics V Ω registry} {m : Model}
  {p : ConstantNodePartition} {st : FoldState} {folded : List Node} {values : List (String × Tensor)}

theorem result_nonempty_defs (hv : Valid m) (h : FoldInv sem m p st folded values) :
    "" ∉ defs (result m st) := by
  intro hmem
  rcases mem_append.mp hmem with hin | hinit
  · exact hv.nonempty_defs (mem_append_left _ hin)
  · obtain ⟨o, ho, hname⟩ := List.mem_map.mp hinit
    exact nonempty_used_spliced hv h (mem_result_initializer.mp ho).2 hname

theorem result_nonempty_used (hv : Valid m) (h : FoldInv sem m p st folded values) :
    "" ∉ usedNodes (result m st).node := by
  intro hmem
  have hused : "" ∈ usedNames (spliced m st) :=
    mem_append_left _ (mem_append_left _ hmem)
  exact nonempty_used_spliced hv h hused rfl

theorem result_constants (hv : Valid m) (h : FoldInv sem m p st folded values) :
    ∀ n ∈ (result m st).node, isConstantOp n = true → n.input = [] ∧ hasSubgraph n = false := by
  intro n hn hc
  rcases mem_rebuild.mp hn with hn | hn
  · obtain ⟨o, -, -, rfl⟩ := fresh_form h hn
    exact ⟨rfl, rfl⟩
  · exact hv.constants n (mem_filter.mp hn).1 hc

theorem result_valid (hv : Valid m) (hsub : folded.Sublist p.constNodes)
    (hp : PartitionInv registry m m.node p) (h : FoldInv sem m p st folded values)
    (hclash : ¬ OmittedClash m p) : Valid (result m st) where
  single := result_single hv hsub hp h
  sorted := result_sorted hv hsub hp h hclash
  outputs := result_outputs hv hsub hp h hclash
  nonempty_defs := result_nonempty_defs hv h
  nonempty_used := result_nonempty_used hv h
  constants := result_constants hv h

theorem original_solves (hv : Valid m) (h : FoldInv sem m p st folded values) (ω : Ω)
    (inputs : String → Option V) : ∀ n ∈ (result m st).node,
      Solves (behaviour sem ω m.opsetImport) n (evalModel sem ω m inputs) := by
  intro n hn
  rcases mem_rebuild.mp hn with hn | hn
  · obtain ⟨o, ho, -, rfl⟩ := fresh_form h hn
    exact sound_makeConstantNode sem (h.value o ho) ω ω inputs
  · exact evalModel_solves sem hv ω inputs n (mem_filter.mp hn).1

theorem value_of_initializer (hv : Valid m) (h : FoldInv sem m p st folded values) {o : String × Tensor}
    (ho : o ∈ (result m st).initializer) (ω : Ω) (inputs : String → Option V) :
    evalModel sem ω m inputs o.1 = some (sem.ofTensor o.2) := by
  obtain ⟨hmem, hused⟩ := mem_result_initializer.mp ho
  rw [h.initializer, mem_append] at hmem
  rcases hmem with hold | hnew
  · exact evalModel_initializer sem hv ω inputs hold
  · exact h.value o (mem_filter.mp hnew).1 (nonempty_used_spliced hv h hused) ω inputs

theorem baseEnv_result (hv : Valid m) (hr : Valid (result m st)) (h : FoldInv sem m p st folded values)
    (ω : Ω) (inputs : String → Option V) : ∀ y ∈ defs (result m st),
      baseEnv sem (result m st) inputs y = evalModel sem ω m inputs y := by
  intro y hy
  have hin : (result m st).inputNames = m.inputNames := rfl
  rcases mem_append.mp hy with hi | hi
  · rw [hin] at hi
    rw [evalModel_def sem hv ω inputs (mem_append_left _ hi), baseEnv, baseEnv, hin,
      if_pos hi, if_pos hi]
  · obtain ⟨o, ho, rfl⟩ := List.mem_map.mp hi
    rw [value_of_initializer hv h ho, ← evalModel_def sem hr ω inputs hy,
      evalModel_initializer sem hr ω inputs ho]

theorem result_preserves (hv : Valid m) (hr : Valid (result m st))
    (h : FoldInv sem m p st folded values) (ω : Ω) (inputs : String → Option V) :
    ∀ o ∈ m.output, evalModel sem ω (result m st) inputs o = evalModel sem ω m inputs o := by
  intro o ho
  have heval := eval_eq_of_solves (behaviour sem ω m.opsetImport)
    (scoped_of_sorted sem hr.sorted ω m.opsetImport) (baseEnv_result hv hr h ω inputs)
    (original_solves hv h ω inputs)
  rw [flatMap_written] at heval
  exact heval o (hr.outputs o ho)

theorem initial_inv (m : Model) (p : ConstantNodePartition) :
    FoldInv sem m p { initializer := m.initializer, constants := constantNodeProducers m } [] [] where
  names := rfl
  outputs := rfl
  initializer := (append_nil _).symm
  fresh := rfl
  value := by simp
  constants := fun _ he => .inl he

theorem foldAll_inv (hv : Valid m) (hp : PartitionInv registry m m.node p) {executor : Executor}
    (hexec : Correct sem executor) : ∃ folded values, folded.Sublist p.constNodes ∧
      FoldInv sem m p (foldAll executor m p) folded values := by
  obtain ⟨folded, values, hsub, hinv⟩ := foldBatches_inv hv hp hexec
    ⟨[], [], nil_sublist _, initial_inv m p⟩
  rw [keyed_snd] at hsub
  exact ⟨folded, values, hsub, hinv⟩

/-- Folding keeps the model's form and meaning whatever the executor fails on, unless a constant node
and a node whose first output is omitted are taken for each other. -/
theorem foldConstant_preserves {cfg : Config} {executor : Executor} {m' : Model}
    (hexec : Correct sem executor) (hv : Valid m)
    (hclash : ∀ p, getConstantNodes cfg registry m = .ok p → ¬ OmittedClash m p)
    (hfold : foldConstant cfg registry executor m = .ok m') :
    Valid m' ∧ m'.inputNames = m.inputNames ∧ m'.output = m.output ∧
      ∀ ω inputs, ∀ o ∈ m.output, evalModel sem ω m' inputs o = evalModel sem ω m inputs o := by
  obtain ⟨p, hpart, hm'⟩ := bind_eq_ok hfold
  cases hm'
  have hp := getConstantNodes_inv hpart
  obtain ⟨folded, values, hsub, hinv⟩ := foldAll_inv hv hp hexec
  have hr : Valid (result m (foldAll executor m p)) := result_valid hv hsub hp hinv (hclash p hpart)
  exact ⟨hr, rfl, rfl, fun ω inputs => result_preserves hv hr hinv ω inputs⟩

end


variable {Ω : Type} {registry : Registry} (sem : OpSemantics Tensor Ω registry)

/-- The executor that computes every output as the operators' meaning says, an omitted output as an
empty tensor. -/
def evaluator (ω : Ω) : Executor := fun sub feeds =>
  sub.output.mapM fun o =>
    if o = "" then .ok ⟨0, [], []⟩
    else
      match evalModel sem ω sub (feedEnv sem sub feeds) o with
      | some t => .ok t
      | none => .error "no value"

theorem evaluator_correct (hid : ∀ t, sem.ofTensor t = t) (ω : Ω) : Correct sem (evaluator sem ω) := by
  intro sub feeds outs h
  have hall := mapM_eq_ok h
  refine ⟨hall.length_eq.symm, ω, fun j o t ho hne ht => ?_⟩
  have hj := hall.get (List.getElem?_eq_some_iff.mp ho).1 (List.getElem?_eq_some_iff.mp ht).1
  rw [get_eq_getElem, get_eq_getElem, (List.getElem?_eq_some_iff.mp ho).2,
    (List.getElem?_eq_some_iff.mp ht).2, if_neg hne] at hj
  split at hj
  · next t' hval =>
    cases hj
    rw [hval, hid]
  · cases hj

def zeros : Tensor := ⟨1, [1, 1, 1], [0, 0, 0, 0]⟩

/-- A few operators: pooling over windows of one element, and a recurrent cell with zero weights. -/
def runOperator : String → List Attr → List Tensor → List Tensor
  | "Constant", [.tensor _ t], _ => [t]
  | "Identity", _, t :: _ => [t]
  | "MaxPool", _, t :: _ => [t, zeros]
  | "GRU", _, _ => [zeros, zeros]
  | _, _, _ => []

def fewOperators (registry : Registry) : OpSemantics Tensor Unit registry where
  ofTensor t := t
  run _ _ n e := runOperator n.opType n.attrs (n.reads.filterMap e)
  run_congr _ _ n e e' h := by
    have hreads : n.reads.filterMap e = n.reads.filterMap e' := filterMap_congr h
    rw [hreads]
  run_deterministic _ _ _ _ _ _ _ := rfl
  run_constant _ _ _ _ _ _ := rfl
  run_value _ _ _ _ _ := rfl

def anyOperator : Registry := fun _ _ _ => true

def foldConfig : Config := ⟨1024, false⟩

def constantNode (name : String) (t : Tensor) : Node := .mk "" "" "Constant" [] [name] [.tensor "value" t]

def twoBranches : Model where
  irVersion := 8
  opsetImport := [("", 17)]
  node := [constantNode "c" zeros, .mk "" "" "Identity" ["c"] ["a"] [],
    .mk "" "" "Identity" ["x"] ["y"] []]
  input := [⟨"x", some ⟨1, some [some 1, some 1, some 1]⟩⟩]
  initializer := []
  output := ["a", "y"]
  valueInfo := []

theorem twoBranches_valid : Valid twoBranches :=
  ⟨by decide, by decide, by decide, by decide, by decide, by decide⟩

theorem twoBranches_preserved : ∃ m',
    foldConstant foldConfig anyOperator (evaluator (fewOperators anyOperator) ()) twoBranches = .ok m' ∧
      Valid m' ∧ m'.inputNames = ["x"] ∧ m'.output = ["a", "y"] ∧ ∀ ω inputs, ∀ o ∈ ["a", "y"],
        evalModel (fewOperators anyOperator) ω m' inputs o =
          evalModel (fewOperators anyOperator) ω twoBranches inputs o := by
  obtain ⟨m', hfold⟩ : ∃ m', foldConstant foldConfig anyOperator
      (evaluator (fewOperators anyOperator) ()) twoBranches = .ok m' := ⟨_, rfl⟩
  refine ⟨m', hfold, foldConstant_preserves (evaluator_correct _ (fun _ => rfl) ()) twoBranches_valid
    ?_ hfold⟩
  rintro p - ⟨-, -, n, hn, -, -, hhead, -⟩
  simp only [twoBranches, mem_cons, not_mem_nil, or_false] at hn
  rcases hn with rfl | rfl | rfl <;> simp [constantNode, Node.output] at hhead

/-- A pooled constant without indices, next to a recurrent layer of which only the last state is
named. -/
def lastStateOnly : Model where
  irVersion := 8
  opsetImport := [("", 17)]
  node := [constantNode "c" zeros, .mk "" "" "MaxPool" ["c"] ["a", ""] [.ints "kernel_shape" [1]],
    .mk "" "" "GRU" ["x", "w", "r"] ["", "h"] [.other "hidden_size" "1"]]
  input := [⟨"x", some ⟨1, some [some 1, some 1, some 1]⟩⟩]
  initializer := [("w", ⟨1, [1, 3, 1], List.replicate 12 0⟩), ("r", ⟨1, [1, 3, 1], List.replicate 12 0⟩)]
  output := ["a", "h"]
  valueInfo := []

theorem lastStateOnly_valid : Valid lastStateOnly :=
  ⟨by decide, by decide, by decide, by decide, by decide, by decide⟩

/-- The recurrent layer is dropped with the pooling layer, as if it had been folded. -/
theorem lastState_lost : Correct (fewOperators anyOperator) (evaluator (fewOperators anyOperator) ()) ∧
    Valid lastStateOnly ∧ ∃ m',
      foldConstant foldConfig anyOperator (evaluator (fewOperators anyOperator) ()) lastStateOnly =
          .ok m' ∧
        "h" ∈ m'.output ∧ "h" ∉ defs m' ++ outs m'.node ∧ ¬ Valid m' ∧
        evalModel (fewOperators anyOperator) () lastStateOnly (fun _ => some zeros) "h" = some zeros ∧
        evalModel (fewOperators anyOperator) () m' (fun _ => some zeros) "h" = none := by
  have hlost : "h" ∉ ["x", "a", "c"] := by decide
  refine ⟨evaluator_correct _ (fun _ => rfl) (), lastStateOnly_valid, _, rfl, ?_, hlost, ?_, rfl, rfl⟩
  · exact mem_cons_of_mem _ mem_cons_self
  · intro hvalid
    exact hlost (hvalid.outputs "h" (mem_cons_of_mem _ mem_cons_self))

end Onnxsim.Fold.Meaning
