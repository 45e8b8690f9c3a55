import Onnxsim.Fold.Readiness

namespace Onnxsim.Fold.Records

open List Lib.Results Proto.Graphs Proto.Models
open Fold.Partition RunOps FoldConstant GraphFold
open Semantics Partitioned RunOpsExact Evaluability
open FoldRuns

theorem lookup_foldl_addOutput (impure : List String) (block : List (String × Tensor)) (st : FoldState)
    (y : String) :
    (y ∈ impure ∧ y ∈ block.map Prod.fst → ∃ k t,
      (block.foldl (addOutput impure) st).constants.lookup y = some (.fresh k, makeConstantNode y t)) ∧
    (¬ (y ∈ impure ∧ y ∈ block.map Prod.fst) →
      (block.foldl (addOutput impure) st).constants.lookup y = st.constants.lookup y) := by
  induction block generalizing st with
  | nil => simp
  | cons o block ih =>
    obtain ⟨hin, hout⟩ := ih (addOutput impure st o)
    rw [foldl_cons]
    by_cases htail : y ∈ impure ∧ y ∈ block.map Prod.fst
    · exact ⟨fun _ => hin htail, fun h => absurd ⟨htail.1, mem_cons_of_mem _ htail.2⟩ h⟩
    · rw [hout htail]
      by_cases hi : impure.contains o.1 = true
      · have hadd : (addOutput impure st o).constants =
            (o.1, .fresh st.newConstantNodes.length, makeConstantNode o.1 o.2) :: st.constants := by
          rw [addOutput, hi]
          rfl
        rw [hadd, lookup_cons]
        by_cases hy : y = o.1
        · subst hy
          refine ⟨fun _ => ⟨st.newConstantNodes.length, o.2, by simp⟩, fun h => absurd ⟨by simpa using hi, by simp⟩ h⟩
        · have hne : (y == o.1) = false := beq_false_of_ne hy
          rw [hne]
          refine ⟨fun h => absurd ⟨h.1, ?_⟩ htail, fun _ => rfl⟩
          exact (mem_cons.mp h.2).resolve_left hy
      · have hadd : (addOutput impure st o).constants = st.constants := by
          rw [addOutput]
          simp only [hi]
          rfl
        rw [hadd]
        refine ⟨fun h => absurd ⟨h.1, ?_⟩ htail, fun _ => rfl⟩
        refine (mem_cons.mp h.2).resolve_left fun hy => hi ?_
        simpa [← hy] using h.1

theorem lookup_filter {α : Type} (dropped : List String) (l : List (String × α)) (y : String) :
    (l.filter fun e => !dropped.contains e.1).lookup y = if y ∈ dropped then none else l.lookup y := by
  induction l with
  | nil => simp
  | cons e l ih =>
    obtain ⟨z, a⟩ := e
    by_cases hz : z ∈ dropped
    · rw [filter_cons_of_neg (by simpa using hz), ih]
      by_cases hy : y ∈ dropped
      · rw [if_pos hy, if_pos hy]
      · have hne : (y == z) = false := beq_false_of_ne fun h => hy (h ▸ hz)
        rw [if_neg hy, if_neg hy, lookup_cons, hne]
    · rw [filter_cons_of_pos (by simpa using hz), lookup_cons, lookup_cons, ih]
      by_cases hyz : y = z
      · simp [hyz, hz]
      · have hne : (y == z) = false := beq_false_of_ne hyz
        rw [hne]

theorem outputNames_snoc (ran : List Ref) (r : Ref) :
    outputNames (ran ++ [r]) = outputNames ran ++ r.2.output := by
  rw [outputNames, outputNames, flatMap_append]
  simp

variable {m : Model} {p : ConstantNodePartition} {keeps : String → Prop} {st : FoldState}
  {ran : List Ref}

theorem lookups_add (h : Lookups m p keeps st.constants st.initializer ran) {r : Ref}
    {block : List (String × Tensor)} (hnames : block.map Prod.fst = r.2.output) (dropped : List String)
    (hdropped : ∀ y ∈ dropped, y ∈ r.2.output)
    (hkeeps : ∀ y ∈ r.2.output, y ≠ "" → y ∈ p.impureOutputs → (keeps y ↔ y ∉ dropped)) :
    Lookups m p keeps
      ((block.foldl (addOutput p.impureOutputs) st).constants.filter fun e => !dropped.contains e.1)
      (block.foldl (addOutput p.impureOutputs) st).initializer (ran ++ [r]) := by
  have hinit := (foldl_addOutput p.impureOutputs block st).1
  have hmono : ∀ y ∈ outputNames ran, y ∈ outputNames (ran ++ [r]) := by
    intro y hy
    rw [outputNames_snoc]
    exact mem_append_left _ hy
  have hmine : ∀ y ∈ r.2.output, y ∈ outputNames (ran ++ [r]) := by
    intro y hy
    rw [outputNames_snoc]
    exact mem_append_right _ hy
  have hsplit : ∀ y ∈ outputNames (ran ++ [r]), y ∈ r.2.output ∨ y ∉ r.2.output ∧ y ∈ outputNames ran := by
    intro y hy
    rw [outputNames_snoc, mem_append] at hy
    by_cases hr : y ∈ r.2.output
    · exact .inl hr
    · exact .inr ⟨hr, hy.resolve_right hr⟩
  have hold : ∀ y, y ∉ r.2.output →
      (block.foldl (addOutput p.impureOutputs) st).constants.lookup y = st.constants.lookup y := by
    intro y hy
    refine (lookup_foldl_addOutput p.impureOutputs block st y).2 fun hmem => hy ?_
    rw [← hnames]
    exact hmem.2
  refine ⟨fun y t hne ht => ?_, fun y hne hy => ?_, fun y c hne hc => ?_, fun y hne hy himp hk => ?_,
    fun n hn hop y hy hne hout => ?_⟩
  · have hmem := mem_of_lookup ht
    rw [hinit, mem_append] at hmem
    rcases hmem with hmem | hmem
    · obtain ⟨u, hu⟩ := exists_lookup hmem
      exact (h.given y u hne hu).imp_right fun hr => ⟨hmono y hr.1, hr.2⟩
    · obtain ⟨hb, hi⟩ := mem_filter.mp hmem
      refine .inr ⟨hmine y ?_, by simpa using hi⟩
      rw [← hnames]
      exact List.mem_map.mpr ⟨(y, t), hb, rfl⟩
  · rw [hinit]
    have hleft : (∃ t, st.initializer.lookup y = some t) → ∃ t,
        (st.initializer ++ block.filter fun o => !p.impureOutputs.contains o.1).lookup y = some t := by
      rintro ⟨t, ht⟩
      exact exists_lookup (mem_append_left _ (mem_of_lookup ht))
    rcases hy with hy | ⟨hy, himp⟩
    · exact hleft (h.initializer y hne (.inl hy))
    · rcases hsplit y hy with hr | ⟨-, hr⟩
      · rw [← hnames] at hr
        obtain ⟨o, ho, rfl⟩ := List.mem_map.mp hr
        refine exists_lookup (a := o.2) (mem_append_right _ (mem_filter.mpr ⟨ho, ?_⟩))
        simpa using himp
      · exact hleft (h.initializer y hne (.inr ⟨hr, himp⟩))
  · rw [lookup_filter] at hc
    split at hc
    · cases hc
    next hdrop =>
    by_cases hb : y ∈ p.impureOutputs ∧ y ∈ block.map Prod.fst
    · obtain ⟨k, t, hk⟩ := (lookup_foldl_addOutput p.impureOutputs block st y).1 hb
      rw [hk] at hc
      cases hc
      have hr : y ∈ r.2.output := hnames ▸ hb.2
      exact .inr ⟨hmine y hr, hb.1, (hkeeps y hr hne hb.1).mpr hdrop, t, rfl⟩
    · rw [(lookup_foldl_addOutput p.impureOutputs block st y).2 hb] at hc
      exact (h.constant y c hne hc).imp_right fun hr => ⟨hmono y hr.1, hr.2⟩
  · rw [lookup_filter]
    rcases hsplit y hy with hr | ⟨hnot, hr⟩
    · rw [if_neg ((hkeeps y hr hne himp).mp hk)]
      obtain ⟨k, t, hk⟩ := (lookup_foldl_addOutput p.impureOutputs block st y).1 ⟨himp, hnames ▸ hr⟩
      exact ⟨_, hk⟩
    · rw [if_neg fun hd => hnot (hdropped y hd), hold y hnot]
      exact h.kept y hne hr himp hk
  · rw [outputNames_snoc, mem_append, not_or] at hout
    rw [lookup_filter, if_neg fun hd => hout.2 (hdropped y hd), hold y hout.2]
    exact h.model n hn hop y hy hne hout.1

def Pointers (m : Model) (p : ConstantNodePartition) (st : FoldState) : Prop :=
  ∀ e ∈ st.constants, pointee m p st.newConstantNodes e.2.1 = some e.2.2 ∧ e.2.2.input = []

theorem Pointers.add (h : Pointers m p st) (impure : List String) (block : List (String × Tensor)) :
    Pointers m p (block.foldl (addOutput impure) st) := by
  obtain ⟨-, hfresh, -, hconst⟩ := foldl_addOutput impure block st
  intro e he
  rcases hconst e he with he | ⟨k, o, -, rfl, hk⟩
  · obtain ⟨hkey, hinput⟩ := h e he
    refine ⟨?_, hinput⟩
    cases hk : e.2.1 with
    | const k =>
      rw [hk] at hkey
      exact hkey
    | model i =>
      rw [hk] at hkey
      exact hkey
    | fresh k =>
      rw [hk] at hkey
      have hget : st.newConstantNodes[k]? = some e.2.2 := hkey
      change (block.foldl (addOutput impure) st).newConstantNodes[k]? = some e.2.2
      rw [hfresh, getElem?_append_left (List.getElem?_eq_some_iff.mp hget).1]
      exact hget
  · exact ⟨hk, rfl⟩

variable {ops : List Ref}

theorem lookups_outputs {outs : List (String × Tensor)} {st : FoldState}
    (hnames : outs.map Prod.fst = outputNames ops) (h : Lookups m p (fun _ => True) st.constants st.initializer ran)
    (hptr : Pointers m p st) :
    Lookups m p (fun _ => True) (outs.foldl (addOutput p.impureOutputs) st).constants
      (outs.foldl (addOutput p.impureOutputs) st).initializer (ran ++ ops) ∧
      Pointers m p (outs.foldl (addOutput p.impureOutputs) st) := by
  refine ⟨?_, hptr.add _ _⟩
  induction ops generalizing outs st ran with
  | nil =>
    obtain rfl : outs = [] := by simpa [outputNames] using hnames
    simpa using h
  | cons r ops ih =>
    rw [outputNames, flatMap_cons] at hnames
    obtain ⟨block, rest, rfl, hblock, hrest⟩ := map_eq_append_iff.mp hnames
    have hone := lookups_add h hblock [] (by simp) (by simp)
    have hfilter : (block.foldl (addOutput p.impureOutputs) st).constants.filter
        (fun e => !([] : List String).contains e.1) =
          (block.foldl (addOutput p.impureOutputs) st).constants := by
      rw [filter_eq_self]
      simp
    rw [hfilter] at hone
    have htail := ih hrest hone (hptr.add _ _)
    rwa [foldl_append, append_cons]

def lastName (block : List (String × Tensor)) : List String := (block.getLast?.map Prod.fst).toList

theorem splice_block (impure : List String) {key : Key} (block : List (String × Tensor))
    (st : GraphFoldState) (remaining : Key → Nat) (hrem : remaining key = block.length) :
    ((block.map fun o => ((key, o.1), o.2)).foldl (spliceOutput impure) (st, remaining)).1.toFoldState =
      { block.foldl (addOutput impure) st.toFoldState with
        constants := (block.foldl (addOutput impure) st.toFoldState).constants.filter
          fun e => !(lastName block).contains e.1 } ∧
    ∀ k, k ≠ key →
      ((block.map fun o => ((key, o.1), o.2)).foldl (spliceOutput impure) (st, remaining)).2 k =
        remaining k := by
  induction block generalizing st remaining with
  | nil =>
    have hfilter : st.constants.filter (fun e => !(lastName []).contains e.1) = st.constants := by
      rw [filter_eq_self]
      simp [lastName]
    refine ⟨?_, fun _ _ => rfl⟩
    rw [foldl_nil, hfilter]
    rfl
  | cons o block ih =>
    have hcount : Function.update remaining key (remaining key - 1) key = block.length := by
      rw [Function.update_self, hrem, length_cons, Nat.add_sub_cancel]
    rw [map_cons, foldl_cons, foldl_cons]
    cases block with
    | nil =>
      have hsplice : spliceOutput impure (st, remaining) ((key, o.1), o.2) =
          ({ st with
              toFoldState := { addOutput impure st.toFoldState o with
                constants := (addOutput impure st.toFoldState o).constants.filter fun e => e.1 ≠ o.1 }
              destroyed := key :: st.destroyed },
            Function.update remaining key (remaining key - 1)) := by
        rw [spliceOutput]
        exact if_pos hcount
      rw [map_nil, foldl_nil, foldl_nil, hsplice]
      refine ⟨?_, fun k hk => Function.update_of_ne hk _ _⟩
      have hfilter : (addOutput impure st.toFoldState o).constants.filter (fun e => e.1 ≠ o.1) =
          (addOutput impure st.toFoldState o).constants.filter
            fun e => !(lastName [o]).contains e.1 := by
        refine filter_congr fun e _ => ?_
        simp [lastName]
      rw [hfilter]
    | cons o' block =>
      have hsplice : spliceOutput impure (st, remaining) ((key, o.1), o.2) =
          ({ st with toFoldState := addOutput impure st.toFoldState o },
            Function.update remaining key (remaining key - 1)) := by
        rw [spliceOutput]
        refine if_neg ?_
        rw [hcount]
        simp
      obtain ⟨hst, hother⟩ := ih { st with toFoldState := addOutput impure st.toFoldState o }
        (Function.update remaining key (remaining key - 1)) hcount
      rw [hsplice]
      refine ⟨?_, fun k hk => (hother k hk).trans (Function.update_of_ne hk _ _)⟩
      rw [hst]
      rfl

/-- The names whose entry goes when their node is destroyed: the last output of a node to be folded. -/
def Forgotten (p : ConstantNodePartition) (y : String) : Prop :=
  ∃ n ∈ p.constNodes, n.output.getLast? = some y

theorem forgotten_iff (hv : Valid m) (hsub : p.constNodes.Sublist m.node) {n : Node}
    (hn : n ∈ p.constNodes) {y : String} (hy : y ∈ n.output) (hne : y ≠ "") :
    Forgotten p y ↔ n.output.getLast? = some y := by
  refine ⟨fun ⟨a, ha, hlast⟩ => ?_, fun hlast => ⟨n, hn, hlast⟩⟩
  have hya : y ∈ a.output := mem_of_getLast? hlast
  exact same_producer hv (hsub.subset ha) (hsub.subset hn) hya hy hne ▸ hlast

theorem lookups_splice (hv : Valid m) (hsub : p.constNodes.Sublist m.node) {tensors : List Tensor}
    {st : GraphFoldState} {remaining : Key → Nat} (hlen : tensors.length = (outputNames ops).length)
    (hnodup : (ops.map Prod.fst).Nodup) (hrem : ∀ r ∈ ops, remaining r.1 = r.2.output.length)
    (hops : ∀ r ∈ ops, r.2 ∈ p.constNodes)
    (h : Lookups m p (fun y => ¬ Forgotten p y) st.constants st.initializer ran) (hptr : Pointers m p st.toFoldState) :
    Lookups m p (fun y => ¬ Forgotten p y)
      (((ownedOutputs ops).zip tensors).foldl (spliceOutput p.impureOutputs)
        (st, remaining)).1.constants
      (((ownedOutputs ops).zip tensors).foldl (spliceOutput p.impureOutputs)
        (st, remaining)).1.initializer (ran ++ ops) ∧
    Pointers m p (((ownedOutputs ops).zip tensors).foldl (spliceOutput p.impureOutputs)
      (st, remaining)).1.toFoldState := by
  induction ops generalizing tensors st remaining ran with
  | nil => exact ⟨by simpa [ownedOutputs] using h, hptr⟩
  | cons r ops ih =>
    have hcount : (tensors.take r.2.output.length).length = r.2.output.length := by
      rw [outputNames, flatMap_cons, length_append] at hlen
      rw [length_take]
      omega
    have hzip : (ownedOutputs (r :: ops)).zip tensors =
        (r.2.output.zip (tensors.take r.2.output.length)).map (fun o => ((r.1, o.1), o.2)) ++
          (ownedOutputs ops).zip (tensors.drop r.2.output.length) := by
      have hblock : (r.2.output.zip (tensors.take r.2.output.length)).map (fun o => ((r.1, o.1), o.2)) =
          (r.2.output.map fun o => (r.1, o)).zip (tensors.take r.2.output.length) := by
        rw [zip_map_left]
        rfl
      rw [hblock, ← zip_append (by rw [length_map, hcount]), take_append_drop]
      rfl
    have hnames : (r.2.output.zip (tensors.take r.2.output.length)).map Prod.fst = r.2.output :=
      map_fst_zip (by omega)
    have hblen : (r.2.output.zip (tensors.take r.2.output.length)).length = r.2.output.length := by
      rw [length_zip, hcount, Nat.min_self]
    have hlast : lastName (r.2.output.zip (tensors.take r.2.output.length)) =
        r.2.output.getLast?.toList := by
      rw [lastName, ← getLast?_map, hnames]
    have hr := hops r mem_cons_self
    obtain ⟨hst, hother⟩ := splice_block p.impureOutputs
      (r.2.output.zip (tensors.take r.2.output.length)) st remaining
      (by rw [hblen]; exact hrem r mem_cons_self)
    have hone := lookups_add h hnames r.2.output.getLast?.toList
      (fun y hy => mem_of_getLast? (by simpa using hy))
      (fun y hy hne _ => by rw [forgotten_iff hv hsub hr hy hne]; simp)
    obtain ⟨hnot, hrest⟩ := nodup_cons.mp hnodup
    rw [hzip, foldl_append]
    refine append_cons ran r ops ▸ ih ?_ hrest (fun a ha => ?_)
      (fun a ha => hops a (mem_cons_of_mem _ ha)) ?_ ?_
    · rw [outputNames, flatMap_cons, length_append] at hlen
      rw [List.length_drop, outputNames]
      omega
    · have hne : a.1 ≠ r.1 := fun he => hnot (List.mem_map.mpr ⟨a, ha, he⟩)
      rw [hother a.1 hne]
      exact hrem a (mem_cons_of_mem _ ha)
    · rw [hst, hlast]
      exact hone
    · rw [hst]
      exact fun e he => hptr.add p.impureOutputs _ e (mem_filter.mp he).1

end Onnxsim.Fold.Records

namespace Onnxsim.Fold.FoldsExactly

open List Lib.Results Lib.Bisection Proto.Graphs Proto.Models
open Fold.Partition RunOps FoldConstant GraphFold
open Semantics Partitioned Resolution RunOpsExact
open RunOpsSound Closure Evaluability Readiness
open FoldRuns Records

def protoBatches (m : Model) (p : ConstantNodePartition) : List (List Ref) :=
  batches (nextBatch (estimateOutputBytes m.valueInfo) p.deferredOutputs)
    (keyed Key.const p.constNodes).length (keyed .const p.constNodes)

/-- The nodes that `_FoldConstant` folds: those of the groups that ran. -/
def foldedNodes (executor : Executor) (m : Model) (p : ConstantNodePartition) : List Ref :=
  (runAll (runGroup executor m (deferredProducers m p) p.impureOutputs) (protoBatches m p)
    { initializer := m.initializer, constants := constantNodeProducers m }).2

theorem foldAll_eq (executor : Executor) (m : Model) (p : ConstantNodePartition) :
    (runAll (runGroup executor m (deferredProducers m p) p.impureOutputs) (protoBatches m p)
      { initializer := m.initializer, constants := constantNodeProducers m }).1 =
      foldAll executor m p := runAll_fst _ _ _

/-- The nodes that `_FoldConstantOnGraph` folds. -/
def foldedOnGraph (executor : Executor) (g : IRGraph) (p : ConstantNodePartition) : List Ref :=
  (runAll (runGroupOnGraph executor g (deferredProducersOnGraph g p) p.impureOutputs) (graphBatches g p)
    { initializer := g.initializer, constants := constantNodeProducersOnGraph g }).2

theorem foldAllOnGraph_eq (executor : Executor) (g : IRGraph) (p : ConstantNodePartition) :
    (runAll (runGroupOnGraph executor g (deferredProducersOnGraph g p) p.impureOutputs)
      (graphBatches g p)
      { initializer := g.initializer, constants := constantNodeProducersOnGraph g }).1 =
      foldAllOnGraph executor g p := runAll_fst _ _ _

theorem numFolded_splice (impure : List String) (outputs : List ((Key × String) × Tensor))
    (acc : GraphFoldState × (Key → Nat)) : (outputs.foldl (spliceOutput impure) acc).1.numFolded = acc.1.numFolded := by
  induction outputs generalizing acc with
  | nil => rfl
  | cons o rest ih =>
    rw [foldl_cons, ih, spliceOutput]
    split <;> rfl

/-- However a pass has to halve its batches, it counts the nodes that it folds, so it reports whether it folded any. -/
theorem numFolded_eq (executor : Executor) (g : IRGraph) (p : ConstantNodePartition) :
    (foldAllOnGraph executor g p).numFolded = (foldedOnGraph executor g p).length := by
  rw [← foldAllOnGraph_eq]
  let Inv : List Ref → GraphFoldState × List Ref → Prop := fun _ t => t.1.numFolded = t.2.length
  refine foldl_batches_induct _ Inv (fun seen b t _ hall h =>
    bisect_induct _ Inv (fun _ l t t' _ h hrun => ?_) (fun _ _ _ _ _ h _ => h) seen le_rfl hall h) [] (prefix_refl _) rfl
  obtain ⟨s', hs, rfl⟩ := mem_traced hrun
  obtain ⟨outputs, -, hs⟩ := bind_eq_ok hs
  cases hs
  simpa [Inv, numFolded_splice] using h

theorem protoBatches_flatten (m : Model) (p : ConstantNodePartition) :
    (protoBatches m p).flatten = keyed .const p.constNodes := flatten_nextBatch _ _ _

theorem graphBatches_flatten (g : IRGraph) (p : ConstantNodePartition) :
    (graphBatches g p).flatten = keyed .const p.constNodes := by
  have hlen : p.constNodes.length = (keyed Key.const p.constNodes).length := by
    rw [keyed, length_mapIdx]
  rw [graphBatches, hlen]
  exact flatten_nextBatch _ _ _

theorem keyed_nodup (ns : List Node) : (keyed Key.const ns).Nodup := by
  refine List.Nodup.of_map Prod.fst ?_
  rw [keyed_fst]
  exact nodup_range.map fun i j hij => Key.const.inj hij

/-- The folder's records are right about `ran`, which holds only nodes that can be evaluated. -/
structure RunInv (ev : Node → Prop) (m : Model) (p : ConstantNodePartition) (keeps : String → Prop)
    (seen : List Ref) (st : FoldState) (ran : List Ref) : Prop where
  lookups : Lookups m p keeps st.constants st.initializer ran
  pointers : Pointers m p st
  ran : ∀ r ∈ ran, r ∈ seen ∧ Evaluable ev m r.2

variable {ev : Node → Prop} {m : Model} {p : ConstantNodePartition} {keeps : String → Prop}
  (hv : Valid m) (hp : ClosureInv m m.node p)

theorem initial_runInv (ev : Node → Prop) (m : Model) (p : ConstantNodePartition)
    (keeps : String → Prop) (hv : Valid m) : RunInv ev m p keeps []
      { initializer := m.initializer, constants := constantNodeProducers m } [] := by
  have hentry : ∀ y r, (y, r) ∈ constantNodeProducers m →
      (∃ i, r.1 = .model i ∧ m.node[i]? = some r.2) ∧ isConstantOp r.2 = true ∧ y ∈ r.2.output := by
    intro y r h
    obtain ⟨hr, hy, hc⟩ := mem_producersOf h
    exact ⟨mem_keyed.mp hr, hc, hy⟩
  refine ⟨⟨fun y t _ ht => ?_, fun y _ hy => ?_, fun y r _ hr => ?_, fun y _ hy => ?_,
    fun n hn hop y hy _ _ => ?_⟩, fun e he => ?_, by simp⟩
  · exact .inl (List.mem_map.mpr ⟨(y, t), mem_of_lookup ht, rfl⟩)
  · rcases hy with hy | ⟨hy, -⟩
    · obtain ⟨o, ho, rfl⟩ := List.mem_map.mp hy
      exact exists_lookup (a := o.2) ho
    · cases hy
  · obtain ⟨⟨i, -, hi⟩, hop, hy⟩ := hentry y r (mem_of_lookup hr)
    exact .inl ⟨hop, mem_of_getElem? hi, hy⟩
  · cases hy
  · exact mem_producersOf_keyed (fun n _ => isConstantOp n) hn hy hop
  · obtain ⟨⟨i, hk, hi⟩, hop, -⟩ := hentry e.1 e.2 he
    exact ⟨by rw [hk]; exact hi, (hv.constants e.2.2 (mem_of_getElem? hi) hop).1⟩

theorem mem_keyed_const {r : Ref} (h : r ∈ keyed .const p.constNodes) : r.2 ∈ p.constNodes := by
  obtain ⟨k, -, hk⟩ := mem_keyed.mp h
  exact mem_of_getElem? hk

variable {st : FoldState} {seen ran l : List Ref} (hinv : RunInv ev m p keeps seen st ran)
  (hpre : seen ++ l <+: keyed .const p.constNodes)

include hpre in
theorem slice_mem {r : Ref} (hr : r ∈ l) : r ∈ keyed .const p.constNodes :=
  hpre.sublist.subset (mem_append_right _ hr)

include hv hp hinv hpre in
theorem shape_slice : Shape (Within m p) (pointee m p st.newConstantNodes)
    (scopeOf (deferredProducers m p) st.constants st.initializer l) l :=
  shape_scopeOf hv hp.sublist hinv.pointers st.initializer fun _ hr => slice_mem hpre hr

include hv hp hinv hpre in
theorem evaluable_of_slice
    (hready : ∀ r ∈ l, Ready ev (scopeOf (deferredProducers m p) st.constants st.initializer l) r.2) :
    ∀ r ∈ l, Evaluable ev m r.2 := by
  have hnode : ∀ r ∈ keyed Key.const p.constNodes, r.2 ∈ m.node :=
    fun r hr => hp.sublist.subset (mem_keyed_const hr)
  intro r hr
  have hmem := slice_mem hpre hr
  obtain ⟨i, hi⟩ := getElem?_of_mem (hnode r hmem)
  refine evaluable_of_ready hv hp hinv.lookups (fun a ha => ?_)
    (fun a ha => hnode a (slice_mem hpre ha)) hready hi (hp.constInput r.2 (mem_keyed_const hmem))
    (hready r hr)
  obtain ⟨hseen, heval⟩ := hinv.ran a ha
  exact ⟨hnode a (hpre.sublist.subset (mem_append_left _ hseen)), heval⟩

include hv hp hinv hpre in
theorem ready_of_slice (hconst : ∀ name t, ev (makeConstantNode name t))
    (hexact : ∀ r ∈ seen, Evaluable ev m r.2 → r ∈ ran) (heval : ∀ r ∈ l, Evaluable ev m r.2)
    (hneeds : ∀ r ∈ l, ∀ y, Needs m p r.2 y → y ∈ p.impureOutputs → ¬ keeps y → y ∈ outputNames l) :
    ∀ r ∈ l, Ready ev (scopeOf (deferredProducers m p) st.constants st.initializer l) r.2 := by
  intro r hr
  exact ready_of_evaluable hv hp hconst hinv.lookups hexact (heval r hr)
    (early_of_slice hv hp.sublist hpre (mem_append_right _ hr))
    (hp.constInput r.2 (mem_keyed_const (slice_mem hpre hr))) (hneeds r hr)

include hinv in
theorem ran_append (heval : ∀ r ∈ l, Evaluable ev m r.2) :
    ∀ r ∈ ran ++ l, r ∈ seen ++ l ∧ Evaluable ev m r.2 := by
  intro r hr
  rcases mem_append.mp hr with hr | hr
  · exact ⟨mem_append_left _ (hinv.ran r hr).1, (hinv.ran r hr).2⟩
  · exact ⟨mem_append_right _ hr, heval r hr⟩

/-- The folder has folded just those of the nodes seen so far that can be evaluated. -/
def Exactly (ev : Node → Prop) (m : Model) (p : ConstantNodePartition) (keeps : String → Prop)
    (seen : List Ref) (st : FoldState) (ran : List Ref) : Prop :=
  RunInv ev m p keeps seen st ran ∧ ∀ r ∈ seen, Evaluable ev m r.2 → r ∈ ran

theorem Exactly.append {st st' : FoldState} {seen ran l : List Ref}
    (h : Exactly ev m p keeps seen st ran) (h' : RunInv ev m p keeps (seen ++ l) st' (ran ++ l)) :
    Exactly ev m p keeps (seen ++ l) st' (ran ++ l) := by
  refine ⟨h', fun r hr heval => ?_⟩
  rcases mem_append.mp hr with hr | hr
  · exact mem_append_left _ (h.2 r hr heval)
  · exact mem_append_right _ hr

theorem RunInv.skip {st : FoldState} {seen ran : List Ref} (h : RunInv ev m p keeps seen st ran)
    (a : Ref) : RunInv ev m p keeps (seen ++ [a]) st ran :=
  ⟨h.lookups, h.pointers, fun r hr => ⟨mem_append_left _ (h.ran r hr).1, (h.ran r hr).2⟩⟩

theorem Exactly.skip {st : FoldState} {seen ran : List Ref} {a : Ref}
    (h : Exactly ev m p keeps seen st ran) (ha : ¬ Evaluable ev m a.2) :
    Exactly ev m p keeps (seen ++ [a]) st ran := by
  refine ⟨h.1.skip a, fun r hr heval => ?_⟩
  rcases mem_append.mp hr with hr | hr
  · exact h.2 r hr heval
  · rw [mem_singleton.mp hr] at heval
    exact absurd heval ha

variable {executor : Executor} (hexec : Exact ev executor)

theorem runOps_names (hexec : Exact ev executor) {deferred constants : Producers}
    {initializer : List (String × Tensor)} {ops : List Ref} {outs : List (String × Tensor)}
    (h : runOps m deferred executor constants initializer ops = .ok outs) :
    outs.map Prod.fst = outputNames ops := by
  obtain ⟨st, -, h⟩ := bind_eq_ok h
  obtain ⟨input, -, h⟩ := bind_eq_ok h
  obtain ⟨tensors, ht, h⟩ := bind_eq_ok h
  cases h
  exact (nameOutputs_spec (hexec.length _ _ _ ht)).1

include hv hp hexec in
theorem runGroup_sound {st st' : FoldState} {seen ran l : List Ref}
    (hinv : RunInv ev m p (fun _ => True) seen st ran) (hpre : seen ++ l <+: keyed .const p.constNodes)
    (h : runGroup executor m (deferredProducers m p) p.impureOutputs l st = .ok st') :
    (∀ r ∈ l, Evaluable ev m r.2) ∧ RunInv ev m p (fun _ => True) (seen ++ l) st' (ran ++ l) := by
  obtain ⟨st₁, hst₁, hst'⟩ := bind_eq_ok h
  cases hst'
  obtain ⟨outs, houts, hst⟩ := bind_eq_ok hst₁
  cases hst
  have heval := evaluable_of_slice hv hp hinv hpre
    ((runOps_ok_iff hexec m (shape_slice hv hp hinv hpre)).mp ⟨outs, houts⟩)
  obtain ⟨hl, hptr⟩ := lookups_outputs (runOps_names hexec houts) hinv.lookups hinv.pointers
  exact ⟨heval, hl, hptr, ran_append hinv heval⟩

include hv hp hexec in
theorem runGroup_ok {st : FoldState} {seen ran l : List Ref}
    (hinv : Exactly ev m p (fun _ => True) seen st ran) (hpre : seen ++ l <+: keyed .const p.constNodes)
    (heval : ∀ r ∈ l, Evaluable ev m r.2) :
    ∃ st', runGroup executor m (deferredProducers m p) p.impureOutputs l st = .ok st' := by
  have hready := ready_of_slice hv hp hinv.1 hpre hexec.constant hinv.2 heval
    (fun _ _ _ _ _ hnot => absurd trivial hnot)
  obtain ⟨outs, houts⟩ := (runOps_ok_iff hexec m (shape_slice hv hp hinv.1 hpre)).mpr hready
  rw [runGroup, runOpsAndAddInitializers, ok_bind houts]
  exact ⟨_, rfl⟩

include hv hp hexec in
theorem mem_foldedNodes_iff {r : Ref} (hr : r ∈ keyed .const p.constNodes) :
    r ∈ foldedNodes executor m p ↔ Evaluable ev m r.2 := by
  have hall : Exactly ev m p (fun _ => True) (protoBatches m p).flatten
      (runAll (runGroup executor m (deferredProducers m p) p.impureOutputs) (protoBatches m p)
        { initializer := m.initializer, constants := constantNodeProducers m }).1
      (foldedNodes executor m p) := by
    refine runAll_exact (fun r : Ref => Evaluable ev m r.2)
      (fun seen s => Exactly ev m p (fun _ => True) seen s.1 s.2)
      (fun seen l s s' hpre hinv hrun => ?_) (fun seen a s _ hinv hbad => hinv.skip hbad)
      (fun b _ u hu seen s hpre hinv => ?_) ⟨initial_runInv ev m p _ hv, by simp⟩
    · rw [protoBatches_flatten] at hpre
      obtain ⟨st', hst', rfl⟩ := mem_traced hrun
      obtain ⟨heval, hnew⟩ := runGroup_sound hv hp hexec hinv.1 hpre hst'
      exact ⟨heval, hinv.append hnew⟩
    · rw [protoBatches_flatten] at hpre
      obtain ⟨st', hst'⟩ := runGroup_ok hv hp hexec hinv hpre hu.good
      refine ⟨(st', s.2 ++ u), ?_⟩
      rw [traced, hst']
      rfl
  rw [protoBatches_flatten] at hall
  exact ⟨fun h => (hall.1.ran r h).2, hall.2 r hr⟩

end Onnxsim.Fold.FoldsExactly
