import Onnxsim.Fold.RunOpsSound

namespace Onnxsim.Fold.FoldRuns

open List Lib.Results Lib.Bisection Proto.Graphs Proto.Models
open Fold.Partition RunOps FoldConstant Semantics
open Fold.Order SubModels RunOpsSound Partitioned

def pointee (m : Model) (p : ConstantNodePartition) (fresh : List Node) : Key → Option Node
  | .const k => p.constNodes[k]?
  | .model i => m.node[i]?
  | .fresh k => fresh[k]?

variable {V Ω : Type} {registry : Registry} (sem : OpSemantics V Ω registry) (m : Model)
  (p : ConstantNodePartition)

/-- The state after the nodes `folded` have been folded to the tensors `values`, in order. -/
structure FoldInv (st : FoldState) (folded : List Node) (values : List (String × Tensor)) : Prop where
  names : values.map Prod.fst = folded.flatMap Node.output
  outputs : st.foldedOutputs = folded.flatMap Node.output
  initializer : st.initializer = m.initializer ++
    values.filter fun o => !p.impureOutputs.contains o.1
  fresh : st.newConstantNodes = (values.filter fun o => p.impureOutputs.contains o.1).map
    fun o => makeConstantNode o.1 o.2
  value : ∀ o ∈ values, o.1 ≠ "" → ValueOf sem m o.1 o.2
  constants : ∀ e ∈ st.constants, e ∈ constantNodeProducers m ∨ ∃ k, ∃ o ∈ values,
    e = (o.1, .fresh k, makeConstantNode o.1 o.2) ∧
      st.newConstantNodes[k]? = some (makeConstantNode o.1 o.2)

theorem foldl_addOutput (impure : List String) (outs : List (String × Tensor)) (st : FoldState) :
    (outs.foldl (addOutput impure) st).initializer =
        st.initializer ++ outs.filter (fun o => !impure.contains o.1) ∧
      (outs.foldl (addOutput impure) st).newConstantNodes = st.newConstantNodes ++
        (outs.filter fun o => impure.contains o.1).map (fun o => makeConstantNode o.1 o.2) ∧
      (outs.foldl (addOutput impure) st).foldedOutputs = st.foldedOutputs ∧
      ∀ e ∈ (outs.foldl (addOutput impure) st).constants, e ∈ st.constants ∨ ∃ k, ∃ o ∈ outs,
        e = (o.1, .fresh k, makeConstantNode o.1 o.2) ∧
          (outs.foldl (addOutput impure) st).newConstantNodes[k]? =
            some (makeConstantNode o.1 o.2) := by
  induction outs generalizing st with
  | nil => simp
  | cons o outs ih =>
    obtain ⟨hinit, hfresh, hfolded, hconst⟩ := ih (addOutput impure st o)
    rw [foldl_cons]
    by_cases hi : impure.contains o.1 = true
    · have hadd : addOutput impure st o =
          { st with
            newConstantNodes := st.newConstantNodes ++ [makeConstantNode o.1 o.2]
            constants := (o.1, .fresh st.newConstantNodes.length, makeConstantNode o.1 o.2) ::
              st.constants } := by
        rw [addOutput, hi]
        rfl
      rw [hadd] at hinit hfresh hfolded hconst ⊢
      have hyes : (o :: outs).filter (fun o => impure.contains o.1) =
          o :: outs.filter (fun o => impure.contains o.1) := filter_cons_of_pos hi
      have hno : (o :: outs).filter (fun o => !impure.contains o.1) =
          outs.filter (fun o => !impure.contains o.1) :=
        filter_cons_of_neg (by simp only [hi]; decide)
      rw [hyes, hno]
      refine ⟨hinit, by rw [hfresh, map_cons, append_assoc]; rfl, hfolded, fun e he => ?_⟩
      rcases hconst e he with he | ⟨k, o', ho', he, hk⟩
      · rcases mem_cons.mp he with rfl | he
        · refine .inr ⟨st.newConstantNodes.length, o, mem_cons_self, rfl, ?_⟩
          rw [hfresh]
          simp
        · exact .inl he
      · exact .inr ⟨k, o', mem_cons_of_mem _ ho', he, hk⟩
    · have hf : impure.contains o.1 = false := Bool.not_eq_true _ ▸ hi
      have hadd : addOutput impure st o = { st with initializer := st.initializer ++ [o] } := by
        rw [addOutput, hf]
        rfl
      rw [hadd] at hinit hfresh hfolded hconst ⊢
      have hyes : (o :: outs).filter (fun o => impure.contains o.1) =
          outs.filter (fun o => impure.contains o.1) := filter_cons_of_neg hi
      have hno : (o :: outs).filter (fun o => !impure.contains o.1) =
          o :: outs.filter (fun o => !impure.contains o.1) :=
        filter_cons_of_pos (by simp only [hf]; decide)
      rw [hyes, hno]
      refine ⟨by rw [hinit, append_assoc]; rfl, hfresh, hfolded, fun e he => ?_⟩
      rcases hconst e he with he | ⟨k, o', ho', he, hk⟩
      · exact .inl he
      · exact .inr ⟨k, o', mem_cons_of_mem _ ho', he, hk⟩

variable {sem m p} {st : FoldState} {folded : List Node} {values : List (String × Tensor)} {ops : List Ref}
  {executor : Executor}

theorem FoldInv.add (h : FoldInv sem m p st folded values) {outs : List (String × Tensor)}
    (hnames : outs.map Prod.fst = outputNames ops) (hvalue : ∀ o ∈ outs, o.1 ≠ "" → ValueOf sem m o.1 o.2) :
    FoldInv sem m p
      { outs.foldl (addOutput p.impureOutputs) st with
        foldedOutputs := (outs.foldl (addOutput p.impureOutputs) st).foldedOutputs ++
          outputNames ops }
      (folded ++ ops.map Prod.snd) (values ++ outs) := by
  obtain ⟨hinit, hfresh, hfolded, hconst⟩ := foldl_addOutput p.impureOutputs outs st
  have hops : outputNames ops = (ops.map Prod.snd).flatMap Node.output := by
    rw [outputNames, flatMap_map]
  refine ⟨?_, ?_, ?_, ?_, ?_, ?_⟩
  · rw [map_append, h.names, hnames, hops, flatMap_append]
  · rw [hfolded, h.outputs, hops, flatMap_append]
  · rw [hinit, h.initializer, filter_append, append_assoc]
  · rw [hfresh, h.fresh, filter_append, map_append]
  · intro o ho
    rcases mem_append.mp ho with ho | ho
    · exact h.value o ho
    · exact hvalue o ho
  · intro e he
    rcases hconst e he with he | ⟨k, o, ho, he, hk⟩
    · rcases h.constants e he with he | ⟨k, o, ho, he, hk⟩
      · exact .inl he
      · refine .inr ⟨k, o, mem_append_left _ ho, he, ?_⟩
        rw [hfresh, getElem?_append_left (List.getElem?_eq_some_iff.mp hk).1]
        exact hk
    · exact .inr ⟨k, o, mem_append_right _ ho, he, hk⟩

theorem FoldInv.scopeOk (hv : Valid m) (hp : PartitionInv registry m m.node p)
    (h : FoldInv sem m p st folded values) (ops : List Ref) :
    ScopeOk sem m (pointee m p st.newConstantNodes)
      (scopeOf (deferredProducers m p) st.constants st.initializer ops) := by
  refine ⟨fun y t hy hl => ?_, fun y r hy hl => ?_, fun y r hy hl => ?_⟩
  · have hmem : (y, t) ∈ st.initializer := mem_of_lookup hl
    rw [h.initializer, mem_append] at hmem
    rcases hmem with hmem | hmem
    · exact fun ω inputs => evalModel_initializer sem hv ω inputs hmem
    · exact h.value (y, t) (mem_filter.mp hmem).1 hy
  · rcases h.constants (y, r) (mem_of_lookup hl) with he | ⟨k, o, ho, he, hk⟩
    · obtain ⟨hr, hout, hc⟩ := mem_producersOf he
      obtain ⟨i, hi, hn⟩ := mem_keyed.mp hr
      have hmem := mem_of_getElem? hn
      obtain ⟨hin, hsub⟩ := hv.constants r.2 hmem hc
      refine ⟨hout, by rw [hi]; exact hn, hc, hin, ?_, sound_of_constant sem hv hmem hc, ?_⟩
      · rw [reads_of_no_subgraph hsub, hin]
        rfl
      · intro k hk
        rw [hi] at hk
        cases hk
    · cases he
      refine ⟨mem_singleton.mpr rfl, hk, rfl, rfl, rfl,
        sound_makeConstantNode sem (h.value o ho), fun k hk => by cases hk⟩
  · have hentry : (y, r) ∈ deferredProducers m p := mem_of_lookup hl
    obtain ⟨hr, hout, hd⟩ := mem_producersOf hentry
    obtain ⟨i, hi, hn⟩ := mem_keyed.mp hr
    have hmem := mem_of_getElem? hn
    obtain ⟨n, hnm, hno, hst, hnc⟩ := hp.deferred y (by simpa using hd)
    obtain rfl : r.2 = n := eq_of_common_output hv hmem hnm (mem_nonempty.mpr ⟨hout, hy⟩)
      (mem_nonempty.mpr ⟨hno, hy⟩)
    exact ⟨hout, by rw [hi]; exact hn, hnc, reads_of_no_subgraph hst.2,
      sound_of_stable sem hv hmem hst, i, hi, hn⟩

theorem runGroup_inv (hv : Valid m) (hp : PartitionInv registry m m.node p) (hexec : Correct sem executor)
    (h : FoldInv sem m p st folded values)
    (hbatch : Batch sem m (pointee m p st.newConstantNodes) (deferredProducers m p) ops) {st' : FoldState}
    (hrun : runGroup executor m (deferredProducers m p) p.impureOutputs ops st = .ok st') :
    ∃ outs, FoldInv sem m p st' (folded ++ ops.map Prod.snd) (values ++ outs) := by
  obtain ⟨st₁, hst₁, hst'⟩ := bind_eq_ok hrun
  cases hst'
  obtain ⟨outs, houts, hst⟩ := bind_eq_ok hst₁
  cases hst
  obtain ⟨hnames, hvalue⟩ :=
    runOps_sound hv (fun _ => rfl) hexec (h.scopeOk hv hp ops) hbatch houts
  exact ⟨outs, h.add hnames hvalue⟩

variable (sem m p) in
/-- Some of the nodes that had their turn have been folded, to their right values. -/
def SomeFolded (seen : List Ref) (st : FoldState) : Prop :=
  ∃ folded values, folded.Sublist (seen.map Prod.snd) ∧ FoldInv sem m p st folded values

theorem foldGroup_inv (hv : Valid m) (hp : PartitionInv registry m m.node p) (hexec : Correct sem executor)
    {seen : List Ref} (hbatch : ∀ fresh, Batch sem m (pointee m p fresh) (deferredProducers m p) ops)
    (h : SomeFolded sem m p seen st) :
    SomeFolded sem m p (seen ++ ops)
      (foldGroup executor m (deferredProducers m p) p.impureOutputs ops st) := by
  rw [foldGroup]
  refine bisect_induct ops (fun done st => SomeFolded sem m p (seen ++ done) st)
    (fun done l s s' hl hinv hrun => ?_) (fun done a s e hl hinv hrun => ?_) [] (Nat.le_refl _)
    (prefix_refl _) (by simpa using h)
  · obtain ⟨folded, values, hsub, hfold⟩ := hinv
    have hslice : l.Sublist ops := (sublist_append_right done l).trans hl.sublist
    obtain ⟨outs, hfold'⟩ := runGroup_inv hv hp hexec hfold ((hbatch _).sublist_of hslice) hrun
    refine ⟨_, _, ?_, hfold'⟩
    rw [← append_assoc, map_append]
    exact hsub.append (List.Sublist.refl _)
  · obtain ⟨folded, values, hsub, hfold⟩ := hinv
    refine ⟨folded, values, ?_, hfold⟩
    rw [← append_assoc, map_append]
    exact hsub.trans (sublist_append_left _ _)

theorem takeBatch_spec (estimate : Node → Nat) (deferredOutputs : List String) (first : Bool)
    (room bytes : Nat) (refs : List Ref) :
    (takeBatch estimate deferredOutputs first room bytes refs).1 ++
        (takeBatch estimate deferredOutputs first room bytes refs).2 = refs ∧
      ∀ r ∈ (takeBatch estimate deferredOutputs first room bytes refs).1,
        consumesDeferred deferredOutputs r.2 = false := by
  induction refs generalizing first room bytes with
  | nil => exact ⟨by simp [takeBatch], by simp [takeBatch]⟩
  | cons r rest ih =>
    cases room with
    | zero => exact ⟨rfl, by simp [takeBatch]⟩
    | succ room =>
      rw [takeBatch]
      split
      · exact ⟨rfl, by simp⟩
      next hc =>
      split
      · exact ⟨rfl, by simp⟩
      · obtain ⟨happ, hnone⟩ := ih false room
          ((bytes + estimate r.2) % 2 ^ 64)
        refine ⟨congrArg (r :: ·) happ, fun a ha => ?_⟩
        rcases mem_cons.mp ha with rfl | ha
        · simpa using hc
        · exact hnone a ha

theorem nextBatch_spec (estimate : Node → Nat) (deferredOutputs : List String)
    (refs : List Ref) :
    (nextBatch estimate deferredOutputs refs).1 ++ (nextBatch estimate deferredOutputs refs).2 =
        refs ∧
      ((nextBatch estimate deferredOutputs refs).1.length ≤ 1 ∨
        ∀ r ∈ (nextBatch estimate deferredOutputs refs).1,
          consumesDeferred deferredOutputs r.2 = false) := by
  cases refs with
  | nil => exact ⟨rfl, .inl (by simp [nextBatch])⟩
  | cons r rest =>
    rw [nextBatch]
    split
    · exact ⟨rfl, .inl (Nat.le_refl 1)⟩
    · obtain ⟨happ, hnone⟩ := takeBatch_spec estimate deferredOutputs true kBatchMaxNodes 0 (r :: rest)
      exact ⟨happ, .inr hnone⟩

theorem deferredProducers_lookup_none {n : Node}
    (h : consumesDeferred p.deferredOutputs n = false) :
    ∀ y ∈ nonempty n.input, (deferredProducers m p).lookup y = none := by
  intro y hy
  cases hl : (deferredProducers m p).lookup y with
  | none => rfl
  | some r =>
    obtain ⟨-, -, hd⟩ := mem_producersOf (show (y, r) ∈ deferredProducers m p from mem_of_lookup hl)
    rw [consumesDeferred, List.any_eq_false] at h
    exact absurd hd (h y (mem_nonempty.mp hy).1)

theorem keyed_snd (key : Nat → Key) (ns : List Node) : (keyed key ns).map Prod.snd = ns := by
  refine ext_getElem? fun i => ?_
  rw [getElem?_map, keyed, getElem?_mapIdx]
  cases ns[i]? <;> rfl

theorem keyed_fst (key : Nat → Key) (ns : List Node) :
    (keyed key ns).map Prod.fst = (List.range ns.length).map key := by
  refine ext_getElem? fun i => ?_
  rw [getElem?_map, keyed, getElem?_mapIdx, getElem?_map]
  by_cases hi : i < ns.length
  · rw [getElem?_eq_getElem hi, getElem?_range hi]
    rfl
  · rw [getElem?_eq_none (by omega), getElem?_eq_none (by rw [length_range]; omega)]
    rfl

theorem batch_of_sublist (hv : Valid m) (hp : PartitionInv registry m m.node p)
    (hsub : ops.Sublist (keyed .const p.constNodes))
    (halone : ops.length ≤ 1 ∨ ∀ r ∈ ops, consumesDeferred p.deferredOutputs r.2 = false) (fresh : List Node) :
    Batch sem m (pointee m p fresh) (deferredProducers m p) ops := by
  have hmem : ∀ r ∈ ops, r.2 ∈ p.constNodes := by
    intro r hr
    obtain ⟨i, -, hn⟩ := mem_keyed.mp (hsub.subset hr)
    exact mem_of_getElem? hn
  refine ⟨?_, fun r hr => ?_, ?_, fun r hr => ?_, fun r hr => ?_, ?_⟩
  · have hs := hsub.map Prod.snd
    rw [keyed_snd] at hs
    exact hs.trans hp.sublist
  · obtain ⟨i, hi, hn⟩ := mem_keyed.mp (hsub.subset hr)
    exact ⟨by rw [hi]; exact hn, i, hi⟩
  · refine List.Nodup.sublist (hsub.map Prod.fst) ?_
    rw [keyed_fst]
    exact nodup_range.map fun i j hij => Key.const.inj hij
  · exact reads_of_no_subgraph (hp.stable r.2 (hmem r hr)).2
  · exact sound_of_stable sem hv (hp.sublist.subset (hmem r hr)) (hp.stable r.2 (hmem r hr))
  · exact halone.imp_right fun hnone r hr => deferredProducers_lookup_none (hnone r hr)

theorem nextBatch_ne_nil (estimate : Node → Nat) (deferredOutputs : List String) {refs : List Ref}
    (h : refs ≠ []) : (nextBatch estimate deferredOutputs refs).1 ≠ [] := by
  cases refs with
  | nil => exact absurd rfl h
  | cons r rest =>
    rw [nextBatch]
    split
    · simp
    · next hc =>
      rw [kBatchMaxNodes, takeBatch, if_neg hc]
      simp

theorem flatten_nextBatch (estimate : Node → Nat) (deferredOutputs : List String) (refs : List Ref) :
    (batches (nextBatch estimate deferredOutputs) refs.length refs).flatten = refs :=
  batches_flatten (fun l => (nextBatch_spec estimate deferredOutputs l).1)
    (fun _ hl => nextBatch_ne_nil estimate deferredOutputs hl) (Nat.le_refl _)

theorem foldBatches_inv (hv : Valid m) (hp : PartitionInv registry m m.node p) (hexec : Correct sem executor)
    (h : SomeFolded sem m p [] st) :
    SomeFolded sem m p (keyed .const p.constNodes)
      (foldBatches executor m (deferredProducers m p) p (keyed .const p.constNodes) st) := by
  have hflat := flatten_nextBatch (estimateOutputBytes m.valueInfo) p.deferredOutputs
    (keyed .const p.constNodes)
  rw [foldBatches]
  nth_rewrite 1 [← hflat]
  refine foldl_batches_induct (keyed .const p.constNodes) (SomeFolded sem m p)
    (fun seen b s hb hall hinv => ?_) [] (by rw [hflat]; exact prefix_refl _) h
  obtain ⟨l, rfl⟩ := mem_batches hb
  have hsub := (sublist_append_right seen _).trans hall.sublist
  exact foldGroup_inv hv hp hexec (batch_of_sublist hv hp hsub (nextBatch_spec _ _ l).2) hinv

end Onnxsim.Fold.FoldRuns

namespace Onnxsim.Fold.Preservation

open List Lib.Results Proto.Graphs Proto.Models
open Fold.Partition RunOps FoldConstant Semantics
open Fold.Order SubModels RunOpsSound Partitioned
open FoldRuns

/-- A node that folding would remove because of another node: its first output is omitted, a constant
node also omits an output, and one of its own results is needed. -/
def OmittedClash (m : Model) (p : ConstantNodePartition) : Prop :=
  ∃ a ∈ p.constNodes, ∃ n ∈ m.node, a ≠ n ∧ "" ∈ a.output ∧ n.output.head? = some "" ∧
    ∃ y ∈ nonempty n.output, y ∈ usedNodes m.node ++ m.output

variable {ns : List Node} {y : String}

theorem mem_usedNodes : y ∈ usedNodes ns ↔ ∃ n ∈ ns, y ∈ n.used := by
  induction ns with
  | nil => simp [usedNodes]
  | cons n ns ih => rw [usedNodes, mem_append, ih]; simp

theorem sorted_of_no_reads (h : ∀ n ∈ ns, n.reads = []) (ds : List String) : Sorted ds ns := by
  induction ns generalizing ds with
  | nil => trivial
  | cons n ns ih =>
    refine ⟨?_, ih (fun a ha => h a (mem_cons_of_mem _ ha)) _⟩
    rw [h n mem_cons_self]
    simp

theorem sorted_filter (Needed : String → Prop) {ds ds' : List String} (hs : Sorted ds ns) {keep : Node → Bool}
    (hds : ∀ y ∈ ds, Needed y → y ∈ ds')
    (hdrop : ∀ n ∈ ns, keep n = false → ∀ y ∈ nonempty n.output, Needed y → y ∈ ds')
    (hneed : ∀ n ∈ ns, keep n = true → ∀ y ∈ n.reads, Needed y) : Sorted ds' (ns.filter keep) := by
  induction ns generalizing ds ds' with
  | nil => trivial
  | cons n ns ih =>
    have hdrop' := fun a ha => hdrop a (mem_cons_of_mem n ha)
    have hneed' := fun a ha => hneed a (mem_cons_of_mem n ha)
    by_cases hk : keep n = true
    · rw [filter_cons_of_pos hk]
      refine ⟨fun y hy => hds y (hs.1 y hy) (hneed n mem_cons_self hk y hy), ?_⟩
      refine ih hs.2 (fun y hy hn => ?_) (fun a ha hka y hy hn => ?_) hneed'
      · rw [mem_append] at hy ⊢
        exact hy.imp_left fun h => hds y h hn
      · exact mem_append_left _ (hdrop' a ha hka y hy hn)
    · rw [filter_cons_of_neg hk]
      refine ih hs.2 (fun y hy hn => ?_) hdrop' hneed'
      rcases mem_append.mp hy with hy | hy
      · exact hds y hy hn
      · exact hdrop n mem_cons_self (Bool.not_eq_true _ ▸ hk) y hy hn

variable {V Ω : Type} {registry : Registry} {sem : OpSemantics V Ω registry} {m : Model}
  {p : ConstantNodePartition} {st : FoldState} {folded : List Node} {values : List (String × Tensor)}

/-- The model after folding, before its unused initializers go. -/
def spliced (m : Model) (st : FoldState) : Model :=
  { m with initializer := st.initializer, node := rebuildNodeList st m.node }

def kept (m : Model) (st : FoldState) : List Node := m.node.filter fun n => !isFolded st.foldedOutputs n

variable (hv : Valid m) (hsub : folded.Sublist p.constNodes) (hp : PartitionInv registry m m.node p)
  (h : FoldInv sem m p st folded values) {n : Node}

include hsub hp in
theorem folded_mem (hn : n ∈ folded) : n ∈ m.node :=
  hp.sublist.subset (hsub.subset hn)

include h in
theorem isFolded_of_mem (hn : n ∈ folded) (hout : n.output ≠ []) : isFolded st.foldedOutputs n = true := by
  rw [isFolded]
  split
  · next ho => exact absurd ho hout
  · next o rest ho =>
    rw [h.outputs, contains_iff_mem]
    exact mem_flatMap.mpr ⟨n, hn, ho ▸ mem_cons_self⟩

include h in
theorem value_of_folded (hn : n ∈ folded) (hy : y ∈ n.output) : ∃ t, (y, t) ∈ values := by
  have hmem : y ∈ values.map Prod.fst := by
    rw [h.names]
    exact mem_flatMap.mpr ⟨n, hn, hy⟩
  obtain ⟨o, ho, rfl⟩ := List.mem_map.mp hmem
  exact ⟨o.2, ho⟩

include hv hsub hp h in
theorem removed_cases (hclash : ¬ OmittedClash m p) (hn : n ∈ m.node) (hf : isFolded st.foldedOutputs n = true) :
    n ∈ folded ∨ ∀ y ∈ nonempty n.output, y ∉ usedNodes m.node ++ m.output := by
  rw [isFolded] at hf
  split at hf
  · cases hf
  next o rest ho =>
  rw [h.outputs, contains_iff_mem] at hf
  obtain ⟨a, ha, hoa⟩ := mem_flatMap.mp hf
  have hon : o ∈ n.output := ho ▸ mem_cons_self
  by_cases hempty : o = ""
  · by_cases han : a = n
    · exact .inl (han ▸ ha)
    · refine .inr fun y hy hused => hclash ?_
      refine ⟨a, hsub.subset ha, n, hn, han, hempty ▸ hoa, ?_, y, hy, hused⟩
      rw [ho, head?_cons, hempty]
  · have heq := eq_of_common_output hv (folded_mem hsub hp ha) hn (mem_nonempty.mpr ⟨hoa, hempty⟩)
      (mem_nonempty.mpr ⟨hon, hempty⟩)
    exact .inl (heq ▸ ha)

end Onnxsim.Fold.Preservation
