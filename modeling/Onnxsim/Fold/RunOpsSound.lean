import Onnxsim.Fold.SubModels

namespace Onnxsim.Fold.RunOpsSound

open List Lib.Dataflow Lib.Results Proto.Graphs Proto.Models
open Fold.Partition RunOps FoldConstant Semantics
open Fold.Order SubModels

variable {V Ω : Type} {registry : Registry} (sem : OpSemantics V Ω registry) (m : Model)

/-- A batch as the folder forms it: nodes of the model in order, each of them known to be
deterministic, and either one node or none that reads a deferred value. -/
structure Batch (nodeOf : Key → Option Node) (deferred : Producers) (ops : List Ref) : Prop where
  sublist : (ops.map Prod.snd).Sublist m.node
  key : ∀ r ∈ ops, nodeOf r.1 = some r.2 ∧ ∃ k, r.1 = .const k
  nodup : (ops.map Prod.fst).Nodup
  reads : ∀ r ∈ ops, r.2.reads = nonempty r.2.input
  sound : ∀ r ∈ ops, Sound sem m r.2
  alone : ops.length ≤ 1 ∨ ∀ r ∈ ops, ∀ y ∈ nonempty r.2.input, deferred.lookup y = none

variable {sem m} {nodeOf : Key → Option Node} {deferred : Producers} {ops : List Ref} {y : String} {st : SubModel}
  {sc : Scope} {initializer : List (String × Tensor)} {input : List ValueInfo}

theorem Batch.sublist_of {ops' : List Ref} (h : Batch sem m nodeOf deferred ops) (hsub : ops'.Sublist ops) :
    Batch sem m nodeOf deferred ops' := by
  refine ⟨(hsub.map _).trans h.sublist, fun r hr => h.key r (hsub.subset hr),
    h.nodup.sublist (hsub.map _), fun r hr => h.reads r (hsub.subset hr),
    fun r hr => h.sound r (hsub.subset hr), ?_⟩
  rcases h.alone with h1 | hnone
  · exact .inl (hsub.length_le.trans h1)
  · exact .inr fun r hr => hnone r (hsub.subset hr)

theorem internal_before (hv : Valid m) {done rest : List Node} {n : Node} (hsub : (done ++ n :: rest).Sublist m.node)
    (hy : y ∈ n.reads) (hint : y ∈ (done ++ n :: rest).flatMap fun a => nonempty a.output) :
    y ∈ done.flatMap fun a => nonempty a.output := by
  obtain ⟨c, hc, hyc⟩ := mem_flatMap.mp hint
  have hpair : m.node.Pairwise fun a c => ∀ y ∈ a.reads, y ∉ nonempty c.output := by
    refine pairwise_iff_getElem.mpr fun i j hi hj hlt => ?_
    exact reads_notMem_later hv.sorted hv.single (getElem?_eq_getElem hi)
      (getElem?_eq_getElem hj) hlt.le
  have hself : ∀ a ∈ m.node, ∀ y ∈ a.reads, y ∉ nonempty a.output := by
    intro a ha
    obtain ⟨i, hi⟩ := getElem?_of_mem ha
    exact reads_notMem_later hv.sorted hv.single hi hi (Nat.le_refl i)
  rcases mem_append.mp hc with hc | hc
  · exact mem_flatMap.mpr ⟨c, hc, hyc⟩
  · rcases mem_cons.mp hc with rfl | hc
    · exact absurd hyc (hself c (hsub.subset (by simp)) y hy)
    · have hlater := (pairwise_append.mp (hpair.sublist hsub)).2.1
      exact absurd hyc ((pairwise_cons.mp hlater).1 c hc y hy)

theorem input_subset_reads (n : Node) : ∀ y ∈ nonempty n.input, y ∈ n.reads := by
  cases n with
  | mk name domain opType input output attrs =>
    intro y hy
    rw [Node.reads]
    exact mem_append_left _ hy

theorem mem_outputNames (hy : y ≠ "") (h : y ∈ outputNames ops) :
    y ∈ (ops.map Prod.snd).flatMap fun a => nonempty a.output := by
  obtain ⟨r, hr, hmem⟩ := mem_flatMap.mp h
  exact mem_flatMap.mpr ⟨r.2, List.mem_map.mpr ⟨r, hr, rfl⟩, mem_nonempty.mpr ⟨hmem, hy⟩⟩

theorem pending_const (k : Nat) (P : Nat → Prop) : Pending m P [Key.const k] := by
  intro key hk
  exact .inl ⟨k, mem_singleton.mp hk⟩

theorem include_op (hv : Valid m) (hnode : ∀ j, nodeOf (.model j) = m.node[j]?) (hsc : ScopeOk sem m nodeOf sc)
    {done rest : List Ref} {r : Ref} (hbatch : Batch sem m nodeOf sc.deferred (done ++ r :: rest))
    (hinternal : sc.internalOutputs = outputNames (done ++ r :: rest)) {fuel : Nat} {st' : SubModel}
    (hinv : BuildInv sem m nodeOf sc st []) (hdone : ∀ a ∈ done, ∀ y ∈ nonempty a.2.output, y ∈ available st)
    (hincluded : r.1 ∉ st.included) (h : includeNode sc fuel r st = .ok st') :
    BuildInv sem m nodeOf sc st' [] ∧ (∀ y ∈ available st, y ∈ available st') ∧
      (∀ y ∈ nonempty r.2.output, y ∈ available st') ∧
      ∀ k, Key.const k ∈ st'.included → Key.const k ∈ r.1 :: st.included := by
  have hr : r ∈ done ++ r :: rest := by simp
  obtain ⟨hkey, k, hk⟩ := hbatch.key r hr
  have hreads := hbatch.reads r hr
  obtain ⟨i, hi⟩ := getElem?_of_mem (hbatch.sublist.subset (List.mem_map.mpr ⟨r, hr, rfl⟩))
  cases fuel with
  | zero => cases h
  | succ fuel =>
    rw [includeNode, if_neg (by simpa using hincluded)] at h
    obtain ⟨s₁, hs₁, h⟩ := bind_eq_ok h
    cases h
    have hsteps := inputs_spec (enter_spec r.1 hinv) hs₁ fun y hy s₂ s₃ hinv₂ hgrow₂ h₂ => by
      have hmem : y ≠ "" → y ∈ nonempty r.2.input := fun hne => mem_nonempty.mpr ⟨hy, hne⟩
      refine includeInput_spec hsc (fun hne hint => ?_) (fun hne r' hr' => ?_)
        (fun hne r' hr' => ?_) hinv₂ h₂
      · rw [hinternal] at hint
        have hsub := hbatch.sublist
        have hflat := mem_outputNames hne hint
        rw [map_append, map_cons] at hsub hflat
        obtain ⟨c, hc, hyc⟩ := mem_flatMap.mp
          (internal_before hv hsub (hreads ▸ hmem hne) hflat)
        obtain ⟨a, ha, rfl⟩ := List.mem_map.mp hc
        exact hgrow₂.1 y (hdone a ha y hyc)
      · obtain ⟨hout, -, hnc', hreads', hsound', i', hi', hn'⟩ := hsc.deferred y r' hne hr'
        have hlt : i' < i := index_lt_of_reads hv hi hn' (hreads ▸ hmem hne)
          (mem_nonempty.mpr ⟨hout, hne⟩)
        rcases hbatch.alone with hlen | hnone
        · have hsingle : done ++ r :: rest = [r] := by
            rw [length_append, length_cons] at hlen
            rw [length_eq_zero_iff.mp (by omega : done.length = 0),
              length_eq_zero_iff.mp (by omega : rest.length = 0), nil_append]
          refine visits_deferred hv hnode hsc fuel hi' hn' hnc' hreads' hsound'
            (fun j a hj ha z hz hint => ?_) (by rw [hk]; exact pending_const k _)
          rw [hinternal, hsingle] at hint
          have hz' := mem_outputNames (mem_nonempty.mp hz).2 hint
          simp only [map_cons, map_nil, flatMap_cons, flatMap_nil,
            append_nil] at hz'
          exact reads_notMem_later hv.sorted hv.single ha hi (by omega) z
            (input_subset_reads a z hz) hz'
        · rw [hnone r hr y (hmem hne)] at hr'
          cases hr'
      · obtain ⟨-, hkey', hc', hinput', hreads', hsound', hne'⟩ := hsc.constant y r' hne hr'
        exact visits_constant hnode fuel hkey' hc' hinput' hreads' hsound' hne'
          (by rw [hk]; exact pending_const k (fun _ => True))
    obtain ⟨hinv₁, hgrow₁, hin⟩ := hsteps
    obtain ⟨hinv', hgrow, hout⟩ := emit_spec hinv₁ hkey (by rw [hreads]; exact hin)
      (hbatch.sound r hr)
    exact ⟨hinv', fun y hy => hgrow.1 y (hgrow₁.1 y hy), hout, fun k hk => hgrow₁.2 k (hgrow.2 k hk)⟩

theorem buildSubModel_spec (hv : Valid m) (hnode : ∀ j, nodeOf (.model j) = m.node[j]?)
    (hsc : ScopeOk sem m nodeOf sc) (hbatch : Batch sem m nodeOf sc.deferred ops)
    (hinternal : sc.internalOutputs = outputNames ops) (h : buildSubModel sc ops = .ok st) :
    BuildInv sem m nodeOf sc st [] ∧ ∀ r ∈ ops, ∀ y ∈ nonempty r.2.output, y ∈ available st := by
  have hempty : BuildInv sem m nodeOf sc {} [] :=
    ⟨trivial, by simp, by simp, by simp, by simp⟩
  have hloop := foldlM_induct
    (I := fun rest s => ∃ done, done ++ rest = ops ∧ BuildInv sem m nodeOf sc s [] ∧
      (∀ r ∈ done, ∀ y ∈ nonempty r.2.output, y ∈ available s) ∧
      ∀ k, Key.const k ∈ s.included → Key.const k ∈ done.map Prod.fst)
    (fun r rest s s' hI hs => by
      obtain ⟨done, rfl, hinv, hdone, hinc⟩ := hI
      have hkey := (hbatch.key r (by simp)).2
      obtain ⟨k, hk⟩ := hkey
      have hfresh : r.1 ∉ s.included := by
        intro hmem
        have hnodup := hbatch.nodup
        rw [map_append, map_cons] at hnodup
        rw [hk] at hmem
        refine (nodup_append.mp hnodup).2.2 r.1 ?_ r.1 mem_cons_self rfl
        rw [hk]
        exact hinc k hmem
      obtain ⟨hinv', hgrow, hout, hinc'⟩ :=
        include_op hv hnode hsc hbatch hinternal hinv hdone hfresh hs
      refine ⟨done ++ [r], by simp, hinv', fun a ha => ?_, fun j hj => ?_⟩
      · rcases mem_append.mp ha with ha | ha
        · exact fun y hy => hgrow y (hdone a ha y hy)
        · rw [mem_singleton.mp ha]
          exact hout
      · rw [map_append, mem_append]
        rcases mem_cons.mp (hinc' j hj) with he | hmem
        · exact .inr (by simp [he])
        · exact .inl (hinc j hmem))
    ⟨[], rfl, hempty, by simp, by simp⟩ h
  obtain ⟨done, hd, hinv, hav, -⟩ := hloop
  rw [append_nil] at hd
  exact ⟨hinv, hd ▸ hav⟩

theorem lookup_of_mem_names {α : Type} {l : List (String × α)} (h : y ∈ l.map Prod.fst) :
    ∃ t, l.lookup y = some t ∧ (y, t) ∈ l := by
  obtain ⟨⟨z, u⟩, hmem, rfl⟩ := List.mem_map.mp h
  obtain ⟨t, ht⟩ := Option.isSome_iff_exists.mp (lookup_isSome_iff.mpr ⟨_, hmem, beq_self_eq_true z⟩)
  obtain ⟨l₁, l₂, rfl, -⟩ := lookup_eq_some_iff.mp ht
  exact ⟨t, ht, mem_append_right _ mem_cons_self⟩

theorem findValueInfo_name {name : String} {vi : ValueInfo} (h : findValueInfoProtoByName m initializer name = .ok vi) :
    vi.name = name := by
  rw [findValueInfoProtoByName] at h
  split at h
  · next v hfind =>
    cases h
    simpa using find?_some hfind
  · split at h
    · cases h
      rfl
    · cases h

theorem feed_names {feeds : List (String × Tensor)}
    (h : (feeds.mapM fun f => findValueInfoProtoByName m initializer f.1) = .ok input) :
    input.map ValueInfo.name = feeds.map Prod.fst := by
  induction feeds generalizing input with
  | nil =>
    cases h
    rfl
  | cons f feeds ih =>
    rw [mapM_cons] at h
    obtain ⟨vi, hvi, h⟩ := bind_eq_ok h
    obtain ⟨rest, hrest, h⟩ := bind_eq_ok h
    cases h
    rw [map_cons, map_cons, findValueInfo_name hvi, ih hrest]

theorem nameOutputs_spec {names : List String} {ts : List Tensor} (h : ts.length = names.length) :
    (nameOutputs names ts).map Prod.fst = names ∧ ∀ p ∈ nameOutputs names ts,
      ∃ j : Nat, names[j]? = some p.1 ∧ ts[j]? = some p.2 := by
  induction names generalizing ts with
  | nil =>
    rw [length_eq_zero_iff.mp h]
    exact ⟨rfl, by simp [nameOutputs]⟩
  | cons x names ih =>
    cases ts with
    | nil => cases h
    | cons t ts =>
      obtain ⟨hmap, hall⟩ := ih (Nat.succ.inj h)
      refine ⟨by rw [nameOutputs, map_cons, hmap], fun p hp => ?_⟩
      rcases mem_cons.mp hp with rfl | hp
      · exact ⟨0, rfl, rfl⟩
      · obtain ⟨j, hj⟩ := hall p hp
        exact ⟨j + 1, hj⟩

theorem baseEnv_opModel (ops : List Ref) (hsc : ScopeOk sem m nodeOf sc) (hinv : BuildInv sem m nodeOf sc st [])
    (hnames : input.map ValueInfo.name = st.feeds.map Prod.fst) (ω : Ω) (inputs : String → Option V) :
    ∀ y ∈ givenNames st, baseEnv sem (opModel m st input ops)
      (feedEnv sem (opModel m st input ops) (st.feeds.map Prod.snd)) y =
        evalModel sem ω m inputs y := by
  intro y hy
  have hvalue : ∀ t, (y, t) ∈ st.feeds ++ st.initializer →
      evalModel sem ω m inputs y = some (sem.ofTensor t) := by
    intro t hmem
    obtain ⟨hlookup, hne⟩ := hinv.given (y, t) hmem
    exact hsc.initializer y t hne hlookup ω inputs
  have hin : (opModel m st input ops).inputNames = st.feeds.map Prod.fst := hnames
  rw [baseEnv, hin]
  split
  · next hmem =>
    obtain ⟨t, ht, hft⟩ := lookup_of_mem_names hmem
    rw [feedEnv, hin, zip_map', List.map_id' , ht, Option.map_some,
      hvalue t (mem_append_left _ hft)]
  · next hmem =>
    rw [givenNames, map_append, mem_append] at hy
    obtain ⟨t, ht, hit⟩ := lookup_of_mem_names (hy.resolve_left hmem)
    rw [show (opModel m st input ops).initializer = st.initializer from rfl, ht, Option.map_some,
      hvalue t (mem_append_right _ hit)]

theorem runOps_sound (hv : Valid m) (hnode : ∀ j, nodeOf (.model j) = m.node[j]?) {executor : Executor}
    (hexec : Correct sem executor) {constants : Producers} {outs : List (String × Tensor)}
    (hsc : ScopeOk sem m nodeOf (scopeOf deferred constants initializer ops))
    (hbatch : Batch sem m nodeOf deferred ops) (h : runOps m deferred executor constants initializer ops = .ok outs) :
    outs.map Prod.fst = outputNames ops ∧ ∀ p ∈ outs, p.1 ≠ "" → ValueOf sem m p.1 p.2 := by
  obtain ⟨st, hst, h⟩ := bind_eq_ok h
  obtain ⟨input, hinput, h⟩ := bind_eq_ok h
  obtain ⟨ts, hts, h⟩ := bind_eq_ok h
  cases h
  obtain ⟨hinv, hav⟩ := buildSubModel_spec hv hnode hsc hbatch rfl hst
  obtain ⟨hlen, ω', hvalues⟩ := hexec _ _ _ hts
  obtain ⟨hmap, hall⟩ := nameOutputs_spec hlen
  refine ⟨hmap, fun p hp hne ω inputs => ?_⟩
  obtain ⟨j, hj, ht⟩ := hall p hp
  have hmem : p.1 ∈ available st := by
    obtain ⟨r, hr, hout⟩ := mem_flatMap.mp (mem_of_getElem? hj)
    exact hav r hr p.1 (mem_nonempty.mpr ⟨hout, hne⟩)
  have hsolve : ∀ n ∈ st.node, Solves (behaviour sem ω' m.opsetImport) n (evalModel sem ω m inputs) :=
    fun n hn => hinv.sound n hn ω ω' inputs
  have heval := eval_eq_of_solves _ (scoped_of_sorted sem hinv.sorted ω' m.opsetImport)
    (baseEnv_opModel ops hsc hinv (feed_names hinput) ω inputs) hsolve p.1
    (by rwa [flatMap_written])
  rw [← heval]
  exact hvalues j p.1 p.2 hj hne ht

end Onnxsim.Fold.RunOpsSound

namespace Onnxsim.Fold.Partitioned

open List Lib.Dataflow Lib.Results Proto.Graphs Proto.Models
open Fold.Partition RunOps FoldConstant Semantics
open Fold.Order SubModels RunOpsSound

/-- An operator whose result the folder may compute ahead of time. -/
def Stable (registry : Registry) (m : Model) (n : Node) : Prop :=
  isDeterministic registry n.domain n.opType (opsetVersionOf m.opsetImport n.domain) = true ∧
    hasSubgraph n = false

structure PartitionInv (registry : Registry) (m : Model) (done : List Node)
    (p : ConstantNodePartition) : Prop where
  sublist : p.constNodes.Sublist done
  stable : ∀ n ∈ p.constNodes, Stable registry m n
  deferred : ∀ y ∈ p.deferredOutputs, ∃ n ∈ done, y ∈ n.output ∧ Stable registry m n ∧
    isConstantOp n = false

variable {n : Node} {p : ConstantNodePartition}

theorem stable_of_foldable {registry : Registry} {m : Model} {names : List String}
    (h : foldable registry m.opsetImport names n = true) : Stable registry m n := by
  simp only [foldable, Bool.and_eq_true, Bool.not_eq_true'] at h
  exact ⟨h.1.1.1.2, h.1.2⟩

theorem isConstantOp_of_opType (h : n.opType = "ConstantOfShape" ∨ n.opType = "Expand") :
    isConstantOp n = false := by
  rcases h with h | h <;> simp [isConstantOp, h]

theorem partitionStep_inv {registry : Registry} {m : Model} {large : Node → Except String Bool} {done : List Node}
    {p' : ConstantNodePartition} (hinv : PartitionInv registry m done p)
    (h : partitionStep registry m.opsetImport large p n = .ok p') : PartitionInv registry m (done ++ [n]) p' := by
  have hkeep : p.constNodes.Sublist (done ++ [n]) := hinv.sublist.trans (sublist_append_left _ _)
  have hadd : (p.constNodes ++ [n]).Sublist (done ++ [n]) :=
    List.Sublist.append hinv.sublist (List.Sublist.refl _)
  have hdeferred : ∀ y ∈ p.deferredOutputs, ∃ a ∈ done ++ [n], y ∈ a.output ∧ Stable registry m a ∧
      isConstantOp a = false := by
    intro y hy
    obtain ⟨a, ha, hrest⟩ := hinv.deferred y hy
    exact ⟨a, mem_append_left _ ha, hrest⟩
  rw [partitionStep] at h
  split at h
  · cases h
    exact ⟨hkeep, hinv.stable, hdeferred⟩
  split at h
  · cases h
    exact ⟨hkeep, hinv.stable, hdeferred⟩
  next hfold =>
  have hstable : Stable registry m n := stable_of_foldable (by simpa using hfold)
  have hboth : ∀ a ∈ p.constNodes ++ [n], Stable registry m a := by
    intro a ha
    rcases mem_append.mp ha with ha | ha
    · exact hinv.stable a ha
    · rw [mem_singleton.mp ha]
      exact hstable
  obtain ⟨isLarge, -, h⟩ := bind_eq_ok h
  split at h
  · split at h
    · cases h
      exact ⟨hadd, hboth, hdeferred⟩
    · cases h
      exact ⟨hadd, hboth, hdeferred⟩
  split at h
  · next htype =>
    cases h
    refine ⟨hkeep, hinv.stable, fun y hy => ?_⟩
    rcases mem_append.mp hy with hy | hy
    · exact hdeferred y hy
    · exact ⟨n, by simp, hy, hstable, isConstantOp_of_opType (by simpa using htype)⟩
  · cases h
    exact ⟨hkeep, hinv.stable, hdeferred⟩

theorem getConstantNodes_inv {cfg : Config} {registry : Registry} {m : Model}
    (h : getConstantNodes cfg registry m = .ok p) :
    PartitionInv registry m m.node p := by
  have hstart : PartitionInv registry m [] (initialPartition cfg m.initializerNames) := by
    rw [initialPartition]
    split <;> exact ⟨List.Sublist.refl _, by simp, by simp⟩
  obtain ⟨done, hdone, hinv⟩ := foldlM_induct
    (I := fun rest p => ∃ done, done ++ rest = m.node ∧ PartitionInv registry m done p)
    (fun n rest p p' hI hp => by
      obtain ⟨done, hd, hinv⟩ := hI
      exact ⟨done ++ [n], by simpa using hd, partitionStep_inv hinv hp⟩)
    ⟨[], rfl, hstart⟩ h
  rw [append_nil] at hdone
  exact hdone ▸ hinv

variable {r : Ref} {y : String}

theorem mem_keyed {key : Nat → Key} {ns : List Node} : r ∈ keyed key ns ↔ ∃ i, r.1 = key i ∧ ns[i]? = some r.2 := by
  rw [keyed, mem_mapIdx]
  constructor
  · rintro ⟨i, hi, rfl⟩
    exact ⟨i, rfl, getElem?_eq_getElem hi⟩
  · rintro ⟨i, hk, hn⟩
    obtain ⟨hi, hn⟩ := List.getElem?_eq_some_iff.mp hn
    exact ⟨i, hi, by rw [hn, ← hk]⟩

theorem mem_producersOf {refs : List Ref} {keep : Node → String → Bool} (h : (y, r) ∈ producersOf refs keep) :
    r ∈ refs ∧ y ∈ r.2.output ∧ keep r.2 y = true := by
  obtain ⟨r', hr', hmem⟩ := mem_flatMap.mp h
  obtain ⟨o, ho, he⟩ := List.mem_map.mp hmem
  cases he
  exact ⟨hr', mem_filter.mp ho⟩

theorem mem_of_lookup {α : Type} {l : List (String × α)} {t : α} (h : l.lookup y = some t) : (y, t) ∈ l := by
  obtain ⟨l₁, l₂, rfl, -⟩ := lookup_eq_some_iff.mp h
  exact mem_append_right _ mem_cons_self

variable {V Ω : Type} {registry : Registry} (sem : OpSemantics V Ω registry) {m : Model}

theorem sound_of_stable (hv : Valid m) (hn : n ∈ m.node) (h : Stable registry m n) : Sound sem m n := by
  intro ω ω' inputs j x hj
  have hs := evalModel_solves sem hv ω inputs n hn j x hj
  rw [hs]
  exact congrArg (·[j]?) (sem.run_deterministic ω ω' m.opsetImport n _ h.1 h.2)

theorem sound_of_constant (hv : Valid m) (hn : n ∈ m.node) (h : isConstantOp n = true) : Sound sem m n := by
  intro ω ω' inputs j x hj
  have hs := evalModel_solves sem hv ω inputs n hn j x hj
  rw [hs]
  exact congrArg (·[j]?) (sem.run_constant ω ω' m.opsetImport n _ h)

theorem sound_makeConstantNode {t : Tensor} (h : y ≠ "" → ValueOf sem m y t) :
    Sound sem m (makeConstantNode y t) := by
  intro ω ω' inputs j x hj
  have hrun : (behaviour sem ω' m.opsetImport).run (makeConstantNode y t) (evalModel sem ω m inputs) =
      [sem.ofTensor t] := sem.run_value ω' m.opsetImport y t _
  rw [hrun]
  have hslots : (behaviour sem ω' m.opsetImport).writes (makeConstantNode y t) =
      [if y = "" then none else some y] := rfl
  rw [hslots] at hj
  cases j with
  | zero =>
    by_cases hy : y = ""
    · simp [hy] at hj
    · have hyx : y = x := by simpa [hy] using hj
      rw [← hyx]
      exact h hy ω inputs
  | succ j => simp at hj

end Onnxsim.Fold.Partitioned

namespace Onnxsim.Fold.Closure

open List Lib.Results Proto.Graphs Proto.Models
open Fold.Partition RunOps FoldConstant Semantics
open Fold.Order Partitioned

/-- A node of the constant closure: a Constant, one to be folded, or one whose folding is deferred. -/
def Known (p : ConstantNodePartition) (n : Node) : Prop :=
  isConstantOp n = true ∨ n ∈ p.constNodes ∨
    isConstantOp n = false ∧ ∀ y ∈ n.output, y ∈ p.deferredOutputs

/-- What the partition has found among the nodes `done`. -/
structure ClosureInv (m : Model) (done : List Node) (p : ConstantNodePartition) : Prop where
  sublist : p.constNodes.Sublist done
  names : ∀ y ∈ p.constNames, y = "" ∨ y ∈ m.initializerNames ∨
    ∃ n ∈ done, y ∈ n.output ∧ Known p n
  constInput : ∀ n ∈ p.constNodes, ∀ y ∈ n.input, y ∈ p.constNames
  deferred : ∀ y ∈ p.deferredOutputs, ∃ n ∈ done, y ∈ n.output ∧ isConstantOp n = false ∧
    (∀ z ∈ n.output, z ∈ p.deferredOutputs) ∧ ∀ z ∈ n.input, z ∈ p.constNames
  impure : ∀ y ∈ p.impureOutputs, ∃ n ∈ p.constNodes, y ∈ n.output ∧ n.input ≠ []
  disjoint : ∀ n ∈ p.constNodes, ∀ y ∈ nonempty n.output, y ∉ p.deferredOutputs

variable {registry : Registry} {m : Model} {large : Node → Except String Bool} {done : List Node}
  {p p' : ConstantNodePartition} {n : Node}

theorem Known.mono (hconst : ∀ a ∈ p.constNodes, a ∈ p'.constNodes)
    (hdeferred : ∀ y ∈ p.deferredOutputs, y ∈ p'.deferredOutputs) (h : Known p n) : Known p' n := by
  rcases h with h | h | ⟨hc, h⟩
  · exact .inl h
  · exact .inr (.inl (hconst n h))
  · exact .inr (.inr ⟨hc, fun y hy => hdeferred y (h y hy)⟩)

theorem partitionStep_cases {opsets : List (String × Int)}
    (h : partitionStep registry opsets large p n = .ok p') :
    p' = p ∨
    isConstantOp n = true ∧ p' = { p with constNames := p.constNames ++ n.output } ∨
    (∀ y ∈ n.input, y ∈ p.constNames) ∧
      (p' = { p with
          constNames := p.constNames ++ n.output
          pureNames := p.pureNames ++ n.output
          constNodes := p.constNodes ++ [n] } ∨
        n.input ≠ [] ∧ p' = { p with
          constNames := p.constNames ++ n.output
          impureOutputs := p.impureOutputs ++ n.output
          constNodes := p.constNodes ++ [n] } ∨
        isConstantOp n = false ∧ p' = { p with
          constNames := p.constNames ++ n.output
          deferredOutputs := p.deferredOutputs ++ n.output }) := by
  rw [partitionStep] at h
  split at h
  · next hc =>
    cases h
    exact .inr (.inl ⟨(Bool.and_eq_true _ _ ▸ hc).1, rfl⟩)
  split at h
  · cases h
    exact .inl rfl
  next hfold =>
  have hinput : ∀ y ∈ n.input, y ∈ p.constNames := by
    have hall : n.input.all p.constNames.contains = true := by
      have hf : foldable registry opsets p.constNames n = true := by simpa using hfold
      rw [foldable, Bool.and_eq_true] at hf
      exact hf.2
    simpa using hall
  obtain ⟨isLarge, -, h⟩ := bind_eq_ok h
  split at h
  · split at h
    · cases h
      exact .inr (.inr ⟨hinput, .inl rfl⟩)
    · next hpure =>
      cases h
      refine .inr (.inr ⟨hinput, .inr (.inl ⟨fun hnil => hpure ?_, rfl⟩)⟩)
      rw [hnil]
      rfl
  split at h
  · next htype =>
    cases h
    exact .inr (.inr ⟨hinput, .inr (.inr ⟨isConstantOp_of_opType (by simpa using htype), rfl⟩)⟩)
  · cases h
    exact .inl rfl

theorem ClosureInv.weaken (h : ClosureInv m done p) (n : Node) : ClosureInv m (done ++ [n]) p where
  sublist := h.sublist.trans (sublist_append_left _ _)
  names y hy := (h.names y hy).imp_right fun hr => hr.imp_right fun ⟨a, ha, hk⟩ =>
    ⟨a, mem_append_left _ ha, hk⟩
  constInput := h.constInput
  deferred y hy := by
    obtain ⟨a, ha, hk⟩ := h.deferred y hy
    exact ⟨a, mem_append_left _ ha, hk⟩
  impure := h.impure
  disjoint := h.disjoint

theorem ClosureInv.names_grow (h : ClosureInv m done p) (hn : Known p' n)
    (hconst : ∀ a ∈ p.constNodes, a ∈ p'.constNodes)
    (hdeferred : ∀ y ∈ p.deferredOutputs, y ∈ p'.deferredOutputs) :
    ∀ y ∈ p.constNames ++ n.output, y = "" ∨ y ∈ m.initializerNames ∨
      ∃ a ∈ done ++ [n], y ∈ a.output ∧ Known p' a := by
  intro y hy
  rcases mem_append.mp hy with hy | hy
  · rcases h.names y hy with h0 | hi | ⟨a, ha, hya, hk⟩
    · exact .inl h0
    · exact .inr (.inl hi)
    · exact .inr (.inr ⟨a, mem_append_left _ ha, hya, hk.mono hconst hdeferred⟩)
  · exact .inr (.inr ⟨n, by simp, hy, hn⟩)

theorem fresh_outputs (hv : Valid m) {rest : List Node} (hdone : done ++ n :: rest = m.node) {a : Node}
    (ha : a ∈ done) {y : String} (hy : y ∈ nonempty n.output) : y ∉ a.output := by
  intro hya
  have hne := (mem_nonempty.mp hy).2
  have houts := (nodup_append.mp hv.single).2.1
  rw [← hdone, flatMap_append, flatMap_cons] at houts
  exact (nodup_append.mp houts).2.2 y (mem_flatMap.mpr ⟨a, ha, mem_nonempty.mpr ⟨hya, hne⟩⟩) y
    (mem_append_left _ hy) rfl

theorem ClosureInv.step (hv : Valid m) {rest : List Node} (hdone : done ++ n :: rest = m.node)
    (h : ClosureInv m done p) (hstep : partitionStep registry m.opsetImport large p n = .ok p') :
    ClosureInv m (done ++ [n]) p' := by
  have hsub : (p.constNodes ++ [n]).Sublist (done ++ [n]) := h.sublist.append (List.Sublist.refl _)
  have hlater : ∀ y ∈ nonempty n.output, y ∉ p.deferredOutputs := by
    intro y hy hd
    obtain ⟨a, ha, hya, -⟩ := h.deferred y hd
    exact fresh_outputs hv hdone ha hy hya
  have hname : ∀ y, y ∈ p.constNames → y ∈ p.constNames ++ n.output :=
    fun y hy => mem_append_left _ hy
  have hdeferred : ∀ y ∈ p.deferredOutputs, ∃ a ∈ done ++ [n], y ∈ a.output ∧ isConstantOp a = false ∧
      (∀ z ∈ a.output, z ∈ p.deferredOutputs) ∧ ∀ z ∈ a.input, z ∈ p.constNames ++ n.output := by
    intro y hy
    obtain ⟨a, ha, hya, hc, hall, hin⟩ := h.deferred y hy
    exact ⟨a, mem_append_left _ ha, hya, hc, hall, fun z hz => hname z (hin z hz)⟩
  have hinputs : (∀ y ∈ n.input, y ∈ p.constNames) →
      ∀ a ∈ p.constNodes ++ [n], ∀ y ∈ a.input, y ∈ p.constNames ++ n.output := by
    intro hin a ha y hy
    rcases mem_append.mp ha with ha | ha
    · exact hname y (h.constInput a ha y hy)
    · rw [mem_singleton.mp ha] at hy
      exact hname y (hin y hy)
  have hdisjoint : ∀ a ∈ p.constNodes ++ [n], ∀ y ∈ nonempty a.output, y ∉ p.deferredOutputs := by
    intro a ha
    rcases mem_append.mp ha with ha | ha
    · exact h.disjoint a ha
    · rw [mem_singleton.mp ha]
      exact hlater
  have hgrow : ∀ a ∈ p.constNodes, a ∈ p.constNodes ++ [n] := fun a ha => mem_append_left _ ha
  have himpure : ∀ y ∈ p.impureOutputs, ∃ a ∈ p.constNodes ++ [n], y ∈ a.output ∧ a.input ≠ [] := by
    intro y hy
    obtain ⟨a, ha, hya⟩ := h.impure y hy
    exact ⟨a, hgrow a ha, hya⟩
  rcases partitionStep_cases hstep with rfl | ⟨hc, rfl⟩ | ⟨hin, rfl | ⟨hne, rfl⟩ | ⟨hc, rfl⟩⟩
  · exact h.weaken n
  · exact ⟨h.sublist.trans (sublist_append_left _ _),
      h.names_grow (.inl hc) (fun _ ha => ha) (fun _ hy => hy),
      fun a ha y hy => hname y (h.constInput a ha y hy), hdeferred, h.impure, h.disjoint⟩
  · exact ⟨hsub, h.names_grow (.inr (.inl (by simp))) hgrow (fun _ hy => hy), hinputs hin, hdeferred,
      himpure, hdisjoint⟩
  · refine ⟨hsub, h.names_grow (.inr (.inl (by simp))) hgrow (fun _ hy => hy), hinputs hin, hdeferred,
      fun y hy => ?_, hdisjoint⟩
    rcases mem_append.mp hy with hy | hy
    · exact himpure y hy
    · exact ⟨n, by simp, hy, hne⟩
  · refine ⟨h.sublist.trans (sublist_append_left _ _),
      h.names_grow (.inr (.inr ⟨hc, fun y hy => mem_append_right _ hy⟩)) (fun _ ha => ha)
        (fun y hy => mem_append_left _ hy),
      fun a ha y hy => hname y (h.constInput a ha y hy), fun y hy => ?_, h.impure, fun a ha y hy hd => ?_⟩
    · rcases mem_append.mp hy with hy | hy
      · obtain ⟨a, ha, hya, hca, hall, hain⟩ := hdeferred y hy
        exact ⟨a, ha, hya, hca, fun z hz => mem_append_left _ (hall z hz), hain⟩
      · exact ⟨n, by simp, hy, hc, fun z hz => mem_append_right _ hz, fun z hz => hname z (hin z hz)⟩
    · rcases mem_append.mp hd with hd | hd
      · exact h.disjoint a ha y hy hd
      · have hy' : y ∈ nonempty n.output := mem_nonempty.mpr ⟨hd, (mem_nonempty.mp hy).2⟩
        exact fresh_outputs hv hdone (h.sublist.subset ha) hy' (mem_nonempty.mp hy).1

theorem getConstantNodes_closure {cfg : Config} (hv : Valid m)
    (h : getConstantNodes cfg registry m = .ok p) : ClosureInv m m.node p := by
  have hstart : ClosureInv m [] (initialPartition cfg m.initializerNames) := by
    rw [initialPartition]
    split
    · exact ⟨List.Sublist.refl _, by simp, by simp, by simp, by simp, by simp⟩
    · exact ⟨List.Sublist.refl _, by simp, by simp, by simp, by simp, by simp⟩
  obtain ⟨done, hdone, hinv⟩ := foldlM_induct
    (I := fun rest p => ∃ done, done ++ rest = m.node ∧ ClosureInv m done p)
    (fun n rest p p' hI hp => by
      obtain ⟨done, hd, hinv⟩ := hI
      exact ⟨done ++ [n], by simpa using hd, hinv.step hv hd hp⟩)
    ⟨[], rfl, hstart⟩ h
  rw [append_nil] at hdone
  exact hdone ▸ hinv

end Onnxsim.Fold.Closure
