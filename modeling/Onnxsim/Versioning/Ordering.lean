import Onnxsim.Lib.NodeRuns
import Onnxsim.Lib.Results
import Onnxsim.Versioning.States

namespace Onnxsim.Versioning.Initializers

open List Lib.Dicts Lib.OrderedMaps Lib.Results
open Graphs Planning States

variable {τ δ : Type} {n : String} {t : τ}

section

variable [DecidableEq δ] {digest : τ → Except VersionError δ} {base cand : Graph τ} {names : List String}

theorem initDiffers_of_both {u : τ} {b : Bool} (ht : (SortedMap.ofList base.initializers).find? n = some t)
    (hu : (SortedMap.ofList cand.initializers).find? n = some u)
    (h : initDiffers digest (SortedMap.ofList base.initializers) (SortedMap.ofList cand.initializers) n = .ok b) :
    ∃ d e, digest t = .ok d ∧ digest u = .ok e ∧ b = decide (d ≠ e) := by
  rw [initDiffers, ht, hu] at h
  obtain ⟨d, hd, h⟩ := bind_eq_ok h
  obtain ⟨e, he, h⟩ := bind_eq_ok h
  cases h
  exact ⟨d, e, hd, he, rfl⟩

theorem same_of_not_differs (hb : base.initNames.Nodup) (hc : cand.initNames.Nodup)
    (h : initDiff digest base cand = .ok names) (hn : n ∉ names) :
    (n ∈ base.initNames ↔ n ∈ cand.initNames) ∧
      ∀ t u, (n, t) ∈ base.initializers → (n, u) ∈ cand.initializers → digest t = digest u := by
  obtain ⟨p, hp, rfl⟩ := filterM_eq_ok h
  have hkey : ∀ m, m ∈ (SortedMap.ofList (base.initializers ++ cand.initializers)).keys ↔
      m ∈ base.initNames ∨ m ∈ cand.initNames := by
    intro m
    rw [← not_iff_not, ← SortedMap.find?_eq_none_iff, SortedMap.find?_ofList_eq_none_iff, map_append,
      mem_append]
    rfl
  by_cases hmem : n ∈ base.initNames ∨ n ∈ cand.initNames
  · have hkeep := hp n ((hkey n).mpr hmem)
    have hfalse : p n = false := by
      by_contra htrue
      exact hn (mem_filter.mpr ⟨(hkey n).mpr hmem, by simpa using htrue⟩)
    rw [hfalse] at hkeep
    have hboth : n ∈ base.initNames ∧ n ∈ cand.initNames := by
      by_contra hnot
      rw [not_and_or] at hnot
      rw [initDiffers] at hkeep
      rcases hnot with hnot | hnot
      · rw [SortedMap.find?_ofList_eq_none_iff.mpr hnot] at hkeep
        cases hkeep
      · rw [SortedMap.find?_ofList_eq_none_iff.mpr hnot] at hkeep
        cases hbase : (SortedMap.ofList base.initializers).find? n with
        | none =>
          rw [hbase] at hkeep
          cases hkeep
        | some t =>
          rw [hbase] at hkeep
          cases hkeep
    refine ⟨⟨fun _ => hboth.2, fun _ => hboth.1⟩, fun t u ht hu => ?_⟩
    obtain ⟨d, e, hd, he, hdec⟩ := initDiffers_of_both ((SortedMap.find?_ofList_iff hb).mpr ht)
      ((SortedMap.find?_ofList_iff hc).mpr hu) hkeep
    have hde : d = e := by simpa using hdec.symm
    rw [hd, he, hde]
  · rw [not_or] at hmem
    refine ⟨⟨fun hm => absurd hm hmem.1, fun hm => absurd hm hmem.2⟩, fun t _ ht _ => ?_⟩
    exact absurd (List.mem_map_of_mem ht) hmem.1

end

variable {base cand : Graph τ}

theorem get?_applyNames (m : SortedMap String τ) (names : List String) (inits : Dict String τ) (n : String) :
    (applyNames m inits names).get? n = if n ∈ names then m.find? n else inits.get? n := by
  induction names generalizing inits with
  | nil => simp [applyNames]
  | cons x names ih =>
    rw [applyNames, foldl_cons, ← applyNames, ih]
    by_cases hn : n ∈ names
    · rw [if_pos hn, if_pos (mem_cons_of_mem _ hn)]
    · rw [if_neg hn]
      by_cases hx : n = x
      · subst hx
        rw [if_pos mem_cons_self]
        cases hm : m.find? n with
        | none => simp
        | some t => simp
      · rw [if_neg fun h => (mem_cons.mp h).elim hx hn]
        cases hm : m.find? x with
        | none => simp [hx]
        | some t => simp [hx]

theorem stateInits_nil (hb : base.initNames.Nodup) : (stateInits base cand []).entries = base.initializers := by
  have hall : (((Dict.empty : Dict String τ).entries ++ base.initializers).map Prod.fst).Nodup := hb
  exact Dict.entries_setAll hall

variable {units : List ChangeUnit}

theorem get?_stateInits (hb : base.initNames.Nodup) (hc : cand.initNames.Nodup) :
    (stateInits base cand units).get? n = some t ↔
      if ∃ u ∈ units, n ∈ u.names then (n, t) ∈ cand.initializers else (n, t) ∈ base.initializers := by
  induction units using List.reverseRecOn generalizing t with
  | nil =>
    rw [Dict.get?_eq_some_iff, stateInits_nil hb]
    simp
  | append_singleton units u ih =>
    have hstep : stateInits base cand (units ++ [u]) =
        applyNames (SortedMap.ofList cand.initializers) (stateInits base cand units) u.names := by
      rw [stateInits, foldl_append]
      rfl
    rw [hstep, get?_applyNames]
    by_cases hn : n ∈ u.names
    · have hsome : ∃ v ∈ units ++ [u], n ∈ v.names := ⟨u, by simp, hn⟩
      rw [if_pos hn, if_pos hsome, SortedMap.find?_ofList_iff hc]
    · have hsame : (∃ v ∈ units ++ [u], n ∈ v.names) ↔ ∃ v ∈ units, n ∈ v.names := by
        simp only [mem_append, mem_singleton]
        constructor
        · rintro ⟨v, hv | rfl, hnv⟩
          · exact ⟨v, hv, hnv⟩
          · exact absurd hnv hn
        · rintro ⟨v, hv, hnv⟩
          exact ⟨v, .inl hv, hnv⟩
      rw [if_neg hn, ih]
      simp only [hsame]

theorem mem_keys_stateInits (hb : base.initNames.Nodup) (hc : cand.initNames.Nodup) :
    n ∈ (stateInits base cand units).keys ↔
      if ∃ u ∈ units, n ∈ u.names then n ∈ cand.initNames else n ∈ base.initNames := by
  simp only [Dict.mem_keys_iff, get?_stateInits hb hc]
  split <;> simp [Graph.initNames]

end Onnxsim.Versioning.Initializers

namespace Onnxsim.Versioning.Ordering

open List Lib.Dicts Lib.Kahn Lib.Results
open Graphs States

variable {t : String} {ns : List Node} {i : Nat} {ts : List String}

section

theorem mem_produced : t ∈ produced ns ↔ t ≠ "" ∧ ∃ n ∈ ns, t ∈ n.outputs := by
  simp only [produced, mem_flatMap, mem_filter, decide_eq_true_eq]
  constructor
  · rintro ⟨n, hn, ht, hne⟩
    exact ⟨hne, n, hn, ht⟩
  · rintro ⟨hne, n, hn, ht⟩
    exact ⟨n, hn, ht, hne⟩

theorem producer_unique (h : (produced ns).Nodup) {j : Nat} {a b : Node} (hi : ns[i]? = some a) (hj : ns[j]? = some b)
    (hne : t ≠ "") (ha : t ∈ a.outputs) (hb : t ∈ b.outputs) : i = j :=
  Lib.NodeRuns.writer_unique h hi hj (mem_filter.mpr ⟨ha, by simpa using hne⟩) (mem_filter.mpr ⟨hb, by simpa using hne⟩)

variable {d d' : Dict String Nat} {idx : Nat}

theorem foldlM_addProducer (h : ts.foldlM (addProducer idx) d = .ok d') :
    (∀ t k, d'.get? t = some k ↔ d.get? t = some k ∨ t ≠ "" ∧ t ∈ ts ∧ k = idx) ∧
      (ts.filter fun t => t ≠ "").Nodup ∧ ∀ t ∈ ts, t ≠ "" → d.get? t = none := by
  induction ts generalizing d with
  | nil =>
    cases h
    simp
  | cons t ts ih =>
    rw [foldlM_cons] at h
    obtain ⟨mid, hmid, h⟩ := bind_eq_ok h
    obtain ⟨hget, hnd, hnone⟩ := ih h
    rw [addProducer] at hmid
    by_cases ht : t = ""
    · rw [if_pos ht] at hmid
      cases hmid
      refine ⟨fun u k => ?_, ?_, ?_⟩
      · rw [hget u k]
        apply or_congr_right
        constructor
        · rintro ⟨hu, hm, hk⟩
          exact ⟨hu, mem_cons_of_mem _ hm, hk⟩
        · rintro ⟨hu, hm, hk⟩
          exact ⟨hu, (mem_cons.mp hm).resolve_left fun he => hu (he.trans ht), hk⟩
      · simpa [ht] using hnd
      · intro u hu hne
        exact hnone u ((mem_cons.mp hu).resolve_left fun he => hne (he.trans ht)) hne
    · rw [if_neg ht] at hmid
      split at hmid
      · cases hmid
      · next hsome =>
        cases hmid
        have hfresh : d.get? t = none := by simpa using hsome
        have hnot : t ∉ ts := by
          intro hm
          have habs := hnone t hm ht
          rw [Dict.get?_set, if_pos rfl] at habs
          cases habs
        refine ⟨fun u k => ?_, ?_, ?_⟩
        · rw [hget u k, Dict.get?_set]
          by_cases hut : u = t
          · subst hut
            rw [if_pos rfl, hfresh]
            simp [ht, hnot, eq_comm]
          · rw [if_neg hut]
            simp [hut]
        · rw [filter_cons_of_pos (by simpa using ht), nodup_cons]
          exact ⟨fun hm => hnot (mem_filter.mp hm).1, hnd⟩
        · intro u hu hne
          rcases mem_cons.mp hu with rfl | hu
          · exact hfresh
          · have hu' := hnone u hu hne
            rw [Dict.get?_set] at hu'
            split at hu'
            · cases hu'
            · exact hu'

theorem foldlM_addProducer_ok (hnd : (ts.filter fun t => t ≠ "").Nodup) (hnone : ∀ t ∈ ts, t ≠ "" → d.get? t = none) :
    ∃ d', ts.foldlM (addProducer idx) d = .ok d' := by
  induction ts generalizing d with
  | nil => exact ⟨d, rfl⟩
  | cons t ts ih =>
    rw [foldlM_cons, addProducer]
    by_cases ht : t = ""
    · rw [if_pos ht]
      exact ih (by simpa [ht] using hnd) fun u hu => hnone u (mem_cons_of_mem _ hu)
    · rw [filter_cons_of_pos (by simpa using ht), nodup_cons] at hnd
      rw [if_neg ht, hnone t mem_cons_self ht, if_neg (by simp)]
      apply ih hnd.2
      intro u hu hne
      have hut : u ≠ t := by
        rintro rfl
        exact hnd.1 (mem_filter.mpr ⟨hu, by simpa using hne⟩)
      rw [Dict.get?_set, if_neg hut]
      exact hnone u (mem_cons_of_mem _ hu) hne

variable {pool : Pool}

theorem poolProducers_spec (h : poolProducers d idx pool = .ok d') :
    (∀ t k, d'.get? t = some k ↔
        d.get? t = some k ∨ t ≠ "" ∧ ∃ i e, pool[i]? = some e ∧ t ∈ e.2.outputs ∧ k = idx + i) ∧
      (produced (pool.map Prod.snd)).Nodup ∧ ∀ t ∈ produced (pool.map Prod.snd), d.get? t = none := by
  induction pool generalizing idx d with
  | nil =>
    cases h
    simp [produced]
  | cons e pool ih =>
    obtain ⟨mid, hmid, h⟩ := bind_eq_ok h
    obtain ⟨hget, hnd, hnone⟩ := ih h
    obtain ⟨hget', hnd', hnone'⟩ := foldlM_addProducer hmid
    have hprod : produced ((e :: pool).map Prod.snd) =
        (e.2.outputs.filter fun t => t ≠ "") ++ produced (pool.map Prod.snd) := rfl
    refine ⟨fun t k => ?_, ?_, ?_⟩
    · rw [hget t k, hget' t k, or_assoc]
      apply or_congr_right
      constructor
      · rintro (⟨hne, ht, hk⟩ | ⟨hne, i, f, hf, ht, hk⟩)
        · exact ⟨hne, 0, e, rfl, ht, hk⟩
        · exact ⟨hne, i + 1, f, hf, ht, by omega⟩
      · rintro ⟨hne, i, f, hf, ht, hk⟩
        cases i with
        | zero =>
          cases hf
          exact .inl ⟨hne, ht, hk⟩
        | succ i => exact .inr ⟨hne, i, f, hf, ht, by omega⟩
    · rw [hprod]
      apply List.Nodup.append hnd' hnd
      intro t ht hp
      obtain ⟨hmem, hne⟩ := mem_filter.mp ht
      have hsome := (hget' t idx).mpr (.inr ⟨by simpa using hne, hmem, rfl⟩)
      rw [hnone t hp] at hsome
      cases hsome
    · intro t ht
      rw [hprod] at ht
      rcases mem_append.mp ht with ht | ht
      · obtain ⟨hmem, hne⟩ := mem_filter.mp ht
        exact hnone' t hmem (by simpa using hne)
      · rw [Option.eq_none_iff_forall_ne_some]
        intro k hk
        have hsome := (hget' t k).mpr (.inl hk)
        rw [hnone t ht] at hsome
        cases hsome

theorem poolProducers_ok (hnd : (produced (pool.map Prod.snd)).Nodup)
    (hnone : ∀ t ∈ produced (pool.map Prod.snd), d.get? t = none) :
    ∃ d', poolProducers d idx pool = .ok d' := by
  induction pool generalizing idx d with
  | nil => exact ⟨d, rfl⟩
  | cons e pool ih =>
    have hprod : produced ((e :: pool).map Prod.snd) =
        (e.2.outputs.filter fun t => t ≠ "") ++ produced (pool.map Prod.snd) := rfl
    rw [hprod] at hnd hnone
    rw [nodup_append'] at hnd
    have hfirst : ∀ t ∈ e.2.outputs, t ≠ "" → d.get? t = none := fun t ht hne =>
      hnone t (mem_append_left _ (mem_filter.mpr ⟨ht, by simpa using hne⟩))
    have hstep : ∃ mid, e.2.outputs.foldlM (addProducer idx) d = .ok mid := foldlM_addProducer_ok hnd.1 hfirst
    obtain ⟨mid, hmid⟩ := hstep
    rw [poolProducers, ok_bind hmid]
    apply ih hnd.2.1
    intro t ht
    rw [Option.eq_none_iff_forall_ne_some]
    intro k hk
    rcases ((foldlM_addProducer hmid).1 t k).mp hk with hk | ⟨hne, hm, -⟩
    · rw [hnone t (mem_append_right _ ht)] at hk
      cases hk
    · exact hnd.2.2 (mem_filter.mpr ⟨hm, by simpa using hne⟩) ht

theorem poolProducers_get? (h : poolProducers .empty 0 pool = .ok d) {k : Nat} :
    d.get? t = some k ↔ t ≠ "" ∧ ∃ e, pool[k]? = some e ∧ t ∈ e.2.outputs := by
  rw [(poolProducers_spec h).1 t k, Dict.get?_empty]
  constructor
  · rintro (habs | ⟨hne, i, e, he, ht, rfl⟩)
    · cases habs
    · exact ⟨hne, e, by rwa [Nat.zero_add], ht⟩
  · rintro ⟨hne, e, he, ht⟩
    exact .inr ⟨hne, k, e, he, ht, (Nat.zero_add k).symm⟩

end

variable {avail : List String} {producers : Dict String Nat} {node : Node} {d : Nat} {ds : List Nat}
  {deps : List (List Nat)} {e : Nat × Node}

theorem mem_readDep (h : readDep avail producers node t = .ok ds) (hne : t ≠ "") (ht : t ∉ avail) :
    d ∈ ds ↔ producers.get? t = some d := by
  rw [readDep, if_neg (not_or.mpr ⟨hne, ht⟩)] at h
  cases hp : producers.get? t with
  | none =>
    rw [hp] at h
    cases h
  | some p =>
    rw [hp] at h
    cases h
    rw [mem_singleton]
    exact ⟨fun he => congrArg some he.symm, fun he => (Option.some.inj he).symm⟩

theorem readDep_skip (h : readDep avail producers node t = .ok ds) (hskip : t = "" ∨ t ∈ avail) : ds = [] := by
  rw [readDep, if_pos hskip] at h
  cases h
  rfl

/-- What a node waits for: the producers of those of its inputs that are not there from the start. -/
def WaitsFor (avail : List String) (producers : Dict String Nat) (node : Node) (d : Nat) : Prop :=
  ∃ t ∈ node.inputs, t ≠ "" ∧ t ∉ avail ∧ producers.get? t = some d

theorem mem_nodeDeps {dss : List (List Nat)} (h : ts.mapM (readDep avail producers node) = .ok dss) :
    d ∈ dss.flatten ↔ ∃ t ∈ ts, t ≠ "" ∧ t ∉ avail ∧ producers.get? t = some d := by
  have hall : List.Forall₂ (fun t ds => readDep avail producers node t = .ok ds) ts dss := mapM_eq_ok h
  clear h
  induction hall with
  | nil => simp
  | @cons t ds ts dss hfirst _ ih =>
    rw [flatten_cons, mem_append, exists_mem_cons_iff]
    refine or_congr ?_ ih
    by_cases hskip : t = "" ∨ t ∈ avail
    · rw [readDep_skip hfirst hskip]
      refine iff_of_false not_mem_nil ?_
      rintro ⟨hne, ht, -⟩
      exact absurd hskip (not_or.mpr ⟨hne, ht⟩)
    · rw [not_or] at hskip
      rw [mem_readDep hfirst hskip.1 hskip.2]
      exact ⟨fun hd => ⟨hskip.1, hskip.2, hd⟩, fun hd => hd.2.2⟩

variable {pool : Pool}

theorem mem_poolDeps (h : poolDeps avail producers pool = .ok deps) (he : pool[i]? = some e) :
    d ∈ deps.getD i [] ↔ WaitsFor avail producers e.2 d := by
  have hall : List.Forall₂ (fun (e : Nat × Node) ds => (do
      let deps ← e.2.inputs.mapM (readDep avail producers e.2)
      .ok deps.flatten.dedup : Except VersionError (List Nat)) = .ok ds) pool deps := mapM_eq_ok h
  obtain ⟨hi, rfl⟩ := List.getElem?_eq_some_iff.mp he
  have hi' : i < deps.length := List.Forall₂.length_eq hall ▸ hi
  have hnode := (forall₂_iff_get.mp hall).2 i hi hi'
  obtain ⟨dss, hdss, hds⟩ := bind_eq_ok hnode
  have hget : deps.getD i [] = dss.flatten.dedup := by
    rw [getD_eq_getElem?_getD, getElem?_eq_getElem hi', Option.getD_some]
    exact (Except.ok.inj hds).symm
  rw [hget, mem_dedup, mem_nodeDeps hdss]
  rfl

theorem poolDeps_ok (h : ∀ e ∈ pool, ∀ t ∈ e.2.inputs, t ≠ "" → t ∉ avail → ∃ k, producers.get? t = some k) :
    ∃ deps, poolDeps avail producers pool = .ok deps := by
  apply mapM_ok
  intro e he
  have hnode : ∃ dss, e.2.inputs.mapM (readDep avail producers e.2) = .ok dss := by
    apply mapM_ok
    intro t ht
    rw [readDep]
    by_cases hskip : t = "" ∨ t ∈ avail
    · exact ⟨[], if_pos hskip⟩
    · rw [if_neg hskip]
      rw [not_or] at hskip
      obtain ⟨k, hk⟩ := h e he t ht hskip.1 hskip.2
      rw [hk]
      exact ⟨[k], rfl⟩
  obtain ⟨dss, hdss⟩ := hnode
  exact ⟨dss.flatten.dedup, ok_bind hdss _⟩

theorem producer_of_poolDeps (h : poolDeps avail producers pool = .ok deps) (he : e ∈ pool) (ht : t ∈ e.2.inputs)
    (hne : t ≠ "") (hout : t ∉ avail) : ∃ k, producers.get? t = some k := by
  obtain ⟨ds, hds⟩ := ok_of_mapM h he
  obtain ⟨dss, hdss, -⟩ := bind_eq_ok hds
  obtain ⟨ds', hds'⟩ := ok_of_mapM hdss ht
  rw [readDep, if_neg (not_or.mpr ⟨hne, hout⟩)] at hds'
  cases hp : producers.get? t with
  | none =>
    rw [hp] at hds'
    cases hds'
  | some k => exact ⟨k, rfl⟩

variable {outputs : List String}

theorem produced_perm {ms : List Node} (h : ns.Perm ms) : (produced ns).Perm (produced ms) :=
  h.flatMap_right _

theorem nodeAt_range (pool : Pool) :
    (List.range pool.length).filterMap (fun i => (pool[i]?).map Prod.snd) = pool.map Prod.snd := by
  induction pool using List.reverseRecOn with
  | nil => rfl
  | append_singleton pool e ih =>
    rw [length_append, length_singleton, range_succ, filterMap_append, map_append]
    congr 1
    · rw [← ih]
      apply filterMap_congr
      intro i hi
      rw [getElem?_append_left (mem_range.mp hi)]
    · simp

theorem topoOrder_cases (h : topoOrder pool avail outputs = .ok ns) :
    ∃ producers deps, poolProducers .empty 0 pool = .ok producers ∧
      poolDeps avail producers pool = .ok deps ∧
      (∀ o ∈ outputs, o ∈ avail ∨ ∃ k, producers.get? o = some k) ∧
      ∃ order, order.Perm (List.range pool.length) ∧ Sorted (orderProblem pool deps) order ∧
        ns = order.filterMap fun i => (pool[i]?).map Prod.snd := by
  rw [topoOrder] at h
  obtain ⟨producers, hprod, h⟩ := bind_eq_ok h
  obtain ⟨deps, hdeps, h⟩ := bind_eq_ok h
  refine ⟨producers, deps, hprod, hdeps, ?_⟩
  dsimp only at h
  split at h
  · cases h
  · next hlen =>
    rw [not_not] at hlen
    split at h
    · cases h
    · next hfind =>
      cases h
      refine ⟨fun o ho => ?_, _, ?_, kahn_sorted _ _, rfl⟩
      · have hnot := find?_eq_none.mp hfind o ho
        by_cases havail : o ∈ avail
        · exact .inl havail
        · cases hk : producers.get? o with
          | some k => exact .inr ⟨k, rfl⟩
          | none => simp [havail, hk] at hnot
      · have hsub : kahn (orderProblem pool deps) (fun i => (pool[i]?).elim 0 Prod.fst) ⊆
            List.range pool.length := fun c hc => mem_range.mpr (kahn_lt _ _ c hc)
        apply (subperm_of_subset (kahn_nodup _ _) hsub).perm_of_length_le
        rw [hlen, length_range]

theorem topoOrder_spec (h : topoOrder pool avail outputs = .ok ns) :
    ns.Perm (pool.map Prod.snd) ∧ (produced ns).Nodup ∧ Ordered Node.inputs avail ns ∧
      ∀ o ∈ outputs, o ∈ avail ∨ o ∈ produced ns := by
  obtain ⟨producers, deps, hprod, hdeps, houts, order, hperm, hsorted, rfl⟩ := topoOrder_cases h
  have hnodes : (order.filterMap fun i => (pool[i]?).map Prod.snd).Perm (pool.map Prod.snd) := by
    rw [← nodeAt_range pool]
    exact hperm.filterMap _
  refine ⟨hnodes, (produced_perm hnodes).nodup_iff.mpr (poolProducers_spec hprod).2.1, ?_, fun o ho => ?_⟩
  · intro before n after heq t ht hne
    by_cases havail : t ∈ avail
    · exact .inl havail
    · obtain ⟨o₁, rest, horder, hbefore, hrest⟩ := filterMap_eq_append_iff.mp heq
      obtain ⟨skip, i, o₂, rfl, hskip, hi, -⟩ := filterMap_eq_cons_iff.mp hrest
      obtain ⟨e, he, hen⟩ := Option.map_eq_some_iff.mp hi
      subst hen
      obtain ⟨d, hd⟩ := producer_of_poolDeps hdeps (mem_of_getElem? he) ht hne havail
      obtain ⟨-, f, hf, hft⟩ := (poolProducers_get? hprod).mp hd
      have hdlt : d < pool.length := (List.getElem?_eq_some_iff.mp hf).1
      have hdep : d ∈ (orderProblem pool deps).deps i := by
        apply mem_dedup.mpr
        apply mem_filter.mpr
        exact ⟨(mem_poolDeps hdeps he).mpr ⟨t, ht, hne, havail, hd⟩, by simpa using hdlt⟩
      have hdone : d ∈ o₁ ++ skip := by
        apply hsorted _ i o₂ _ d hdep
        rw [horder, append_assoc]
      right
      refine mem_produced.mpr ⟨hne, f.2, ?_, hft⟩
      rcases mem_append.mp hdone with hd₁ | hd₂
      · rw [← hbefore]
        exact mem_filterMap.mpr ⟨d, hd₁, by rw [hf]; rfl⟩
      · have hnone := hskip d hd₂
        rw [hf] at hnone
        cases hnone
  · refine (houts o ho).imp_right fun ⟨k, hk⟩ => ?_
    obtain ⟨hne, e, he, ht⟩ := (poolProducers_get? hprod).mp hk
    refine mem_produced.mpr ⟨hne, e.2, hnodes.mem_iff.mpr ?_, ht⟩
    exact List.mem_map_of_mem (mem_of_getElem? he)

theorem Ordered.producer_before {uses : Node → List String} {l : List Node} (h : Ordered uses avail l) {q : Nat}
    {m : Node} (hm : l[q]? = some m) (ht : t ∈ uses m) (hne : t ≠ "") (hout : t ∉ avail) :
    ∃ r < q, ∃ a, l[r]? = some a ∧ t ∈ a.outputs := by
  obtain ⟨hq, rfl⟩ := List.getElem?_eq_some_iff.mp hm
  have hsplit : l = l.take q ++ l[q] :: l.drop (q + 1) := by simp
  have hprod := (h _ _ _ hsplit t ht hne).resolve_left hout
  obtain ⟨-, a, ha, hta⟩ := mem_produced.mp hprod
  obtain ⟨r, hr, rfl⟩ := mem_take_iff_getElem.mp ha
  have hrq : r < q := by omega
  exact ⟨r, hrq, _, getElem?_eq_getElem (by omega), hta⟩

theorem topoOrder_ok {l : List Node} (hnd : (produced (pool.map Prod.snd)).Nodup)
    (hl : Ordered Node.inputs avail l) (hsingle : (produced l).Nodup)
    (hback : ∀ e ∈ pool, ∃ m ∈ l, m.inputs = e.2.inputs ∧ m.outputs = e.2.outputs)
    (hprod : ∀ t ∈ produced l, t ∈ produced (pool.map Prod.snd))
    (hout : ∀ o ∈ outputs, o ∈ avail ∨ o ∈ produced l) :
    ∃ ns, topoOrder pool avail outputs = .ok ns := by
  have hplace : ∀ k : Nat, ∃ q : Nat, ∀ e : Nat × Node, pool[k]? = some e →
      ∃ m, l[q]? = some m ∧ m.inputs = e.2.inputs ∧ m.outputs = e.2.outputs := by
    intro k
    cases hk : pool[k]? with
    | none => exact ⟨0, fun e he => by cases he⟩
    | some e =>
      obtain ⟨m, hm, hin, hout⟩ := hback e (mem_of_getElem? hk)
      obtain ⟨q, hq⟩ := mem_iff_getElem?.mp hm
      exact ⟨q, fun e' he => by cases he; exact ⟨m, hq, hin, hout⟩⟩
  choose place hplace using hplace
  obtain ⟨producers, hproducers⟩ : ∃ d, poolProducers .empty 0 pool = .ok d :=
    poolProducers_ok hnd fun t _ => Dict.get?_empty t
  have hmade : ∀ t ∈ produced l, ∃ k, producers.get? t = some k := by
    intro t ht
    obtain ⟨hne, n, hn, htn⟩ := mem_produced.mp (hprod t ht)
    obtain ⟨e, he, rfl⟩ := List.mem_map.mp hn
    obtain ⟨k, hk⟩ := mem_iff_getElem?.mp he
    exact ⟨k, (poolProducers_get? hproducers).mpr ⟨hne, e, hk, htn⟩⟩
  obtain ⟨deps, hdeps⟩ : ∃ deps, poolDeps avail producers pool = .ok deps := by
    apply poolDeps_ok
    intro e he t ht hne havail
    obtain ⟨m, hm, hin, -⟩ := hback e he
    obtain ⟨q, hq⟩ := mem_iff_getElem?.mp hm
    obtain ⟨r, -, a, ha, hta⟩ := Ordered.producer_before hl hq (hin ▸ ht) hne havail
    exact hmade t (mem_produced.mpr ⟨hne, a, mem_of_getElem? ha, hta⟩)
  -- A producer stands before its consumers in `l`, so the places in `l` rank the pool.
  have hrank : ∀ c < (orderProblem pool deps).n, ∀ d ∈ (orderProblem pool deps).deps c, place d < place c := by
    intro c hc d hd
    have hc' : pool[c]? = some pool[c] := getElem?_eq_getElem hc
    have hwait := (mem_poolDeps hdeps hc').mp (mem_filter.mp (mem_dedup.mp hd)).1
    obtain ⟨t, ht, hne, havail, hget⟩ := hwait
    obtain ⟨-, f, hf, hft⟩ := (poolProducers_get? hproducers).mp hget
    obtain ⟨m, hm, hin, -⟩ := hplace c _ hc'
    obtain ⟨m', hm', -, hout'⟩ := hplace d f hf
    obtain ⟨r, hr, a, ha, hta⟩ := Ordered.producer_before hl hm (hin ▸ ht) hne havail
    have hsame : r = place d := producer_unique hsingle ha hm' hne hta (hout' ▸ hft)
    exact hsame ▸ hr
  have hlen : (kahn (orderProblem pool deps) fun i => (pool[i]?).elim 0 Prod.fst).length = pool.length := by
    have hperm : (kahn (orderProblem pool deps) fun i => (pool[i]?).elim 0 Prod.fst).Perm
        (List.range pool.length) := by
      rw [perm_ext_iff_of_nodup (kahn_nodup _ _) nodup_range]
      intro c
      rw [mem_range]
      exact ⟨kahn_lt _ _ c, fun hc => mem_kahn _ place hrank hc⟩
    rw [hperm.length_eq, length_range]
  have hfind : (outputs.find? fun o => o ∉ avail ∧ (producers.get? o).isNone) = none := by
    rw [find?_eq_none]
    intro o ho hbad
    obtain ⟨havail, hnone⟩ : o ∉ avail ∧ (producers.get? o).isNone := by simpa using hbad
    obtain ⟨k, hk⟩ := hmade o ((hout o ho).resolve_left havail)
    rw [hk] at hnone
    cases hnone
  rw [topoOrder, ok_bind hproducers, ok_bind hdeps]
  rw [if_neg (not_not.mpr hlen), hfind]
  exact ⟨_, rfl⟩

end Onnxsim.Versioning.Ordering
