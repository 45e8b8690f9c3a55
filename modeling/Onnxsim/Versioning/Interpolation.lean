import Onnxsim.Versioning.Ordering
import Onnxsim.Versioning.Units

namespace Onnxsim.Versioning.Correspondence

open List Option Lib.OrderedMaps Graphs Planning
open States Matching Versioning.Ordering Versioning.Units

variable {i j : Nat}

/-- Two candidate nodes with an omitted first output are paired with one base node, and the earlier of the
two has its content. -/
def Collides (bn cn : List Node) : Prop :=
  ∃ (i j j' : Nat) (a b c : Node), firstIndex bn "" = some i ∧ j < j' ∧
    bn[i]? = some a ∧ cn[j]? = some b ∧ cn[j']? = some c ∧
    b.outputs.head? = some "" ∧ c.outputs.head? = some "" ∧ nodeKey b = nodeKey a

def comparison (bn cn : List Node) (blockOf : List Nat) : Comparison :=
  ⟨bn, cn, (matchNodes bn cn).1, (matchNodes bn cn).2, blockOf⟩

variable {bn cn : List Node} {blockOf : List Nat}

theorem head_of_firstIndex {o : String} (h : firstIndex bn o = some i) :
    ∃ a, bn[i]? = some a ∧ a.outputs.head? = some o := by
  obtain ⟨hi, ha, -⟩ := findIdx?_eq_some_iff_getElem.mp h
  exact ⟨bn[i], getElem?_eq_getElem hi, by simpa using ha⟩

theorem mem_of_head? {n : Node} {o : String} (h : n.outputs.head? = some o) : o ∈ n.outputs :=
  mem_of_mem_head? h

theorem collides_iff (hc : (produced cn).Nodup) : Collides bn cn ↔
    ∃ j i, (matchNodes bn cn).1.find? j = some i ∧ (comparison bn cn blockOf).candKey j =
      (comparison bn cn blockOf).baseKey i ∧ (matchNodes bn cn).2.find? i ≠ some j := by
  constructor
  · rintro ⟨i, j, j', a, b, c, hi, hlt, ha, hb, hc, hbo, hco, hkey⟩
    refine ⟨j, i, matched_iff.mpr ⟨b, "", hb, hbo, hi⟩, ?_, fun hinv => ?_⟩
    · change (cn[j]?).map nodeKey = (bn[i]?).map nodeKey
      rw [hb, ha, map_some, map_some, hkey]
    · obtain ⟨k, hk, hle⟩ := inverse_of_matched (matched_iff.mpr ⟨c, "", hc, hco, hi⟩)
      rw [hinv] at hk
      cases hk
      omega
  · rintro ⟨j, i, hmatch, hkey, hinv⟩
    obtain ⟨j', hj', hle⟩ := inverse_of_matched hmatch
    have hne : j ≠ j' := by
      rintro rfl
      exact hinv hj'
    obtain ⟨b, o, hb, hbo, hi⟩ := matched_iff.mp hmatch
    obtain ⟨c, o', hc', hco, hi'⟩ := matched_iff.mp (matched_of_inverse hj')
    obtain ⟨a, ha, hao⟩ := head_of_firstIndex hi
    obtain ⟨a', ha', hao'⟩ := head_of_firstIndex hi'
    rw [ha] at ha'
    cases ha'
    rw [hao] at hao'
    cases hao'
    -- A first output that is there is produced by one candidate node only.
    have hempty : o = "" := by
      by_contra ho
      exact hne (producer_unique hc hb hc' ho (mem_of_head? hbo) (mem_of_head? hco))
    subst hempty
    have hkey' : (cn[j]?).map nodeKey = (bn[i]?).map nodeKey := hkey
    rw [hb, ha, map_some, map_some] at hkey'
    exact ⟨i, j, j', a, b, c, hi, by omega, ha, hb, hc', hbo, hco, Option.some.inj hkey'⟩

theorem split_comparison (names : List String) : Split (comparison bn cn blockOf) names
    (buildUnits (comparison bn cn blockOf) ((comparison bn cn blockOf).items names)) :=
  split_buildUnits matched_of_inverse matched_lt

theorem key_of_not_mem_diffCand (hmatch : (matchNodes bn cn).1.find? j = some i)
    (hj : j ∉ (comparison bn cn blockOf).diffCand) :
    (comparison bn cn blockOf).candKey j = (comparison bn cn blockOf).baseKey i := by
  by_contra hne
  apply hj
  apply mem_filter.mpr
  refine ⟨mem_range.mpr (matched_lt hmatch).1, ?_⟩
  have hmatch' : (comparison bn cn blockOf).matched.find? j = some i := hmatch
  rw [hmatch']
  simpa using hne

theorem matched_of_not_mem_diffCand (hlt : j < cn.length) (hj : j ∉ (comparison bn cn blockOf).diffCand) :
    ∃ i, (matchNodes bn cn).1.find? j = some i := by
  cases hmatch : (matchNodes bn cn).1.find? j with
  | some i => exact ⟨i, rfl⟩
  | none =>
    refine absurd (mem_filter.mpr ⟨mem_range.mpr hlt, ?_⟩) hj
    have hmatch' : (comparison bn cn blockOf).matched.find? j = none := hmatch
    rw [hmatch']

theorem partner_of_not_mem_diffBase (hlt : i < bn.length) (hi : i ∉ (comparison bn cn blockOf).diffBase) :
    ∃ j, (matchNodes bn cn).2.find? i = some j ∧
      (comparison bn cn blockOf).candKey j = (comparison bn cn blockOf).baseKey i := by
  cases hinv : (matchNodes bn cn).2.find? i with
  | none =>
    refine absurd (mem_append_left _ (mem_filter.mpr ⟨mem_range.mpr hlt, ?_⟩)) hi
    have hinv' : (comparison bn cn blockOf).inverse.find? i = none := hinv
    rw [hinv']
    rfl
  | some j =>
    refine ⟨j, rfl, key_of_not_mem_diffCand (matched_of_inverse hinv) fun hj => hi ?_⟩
    exact mem_append_right _ (mem_filterMap.mpr ⟨j, hj, matched_of_inverse hinv⟩)

variable {names : List String} {units : List ChangeUnit}

def kept (bn : List Node) (units : List ChangeUnit) : List Nat :=
  (List.range bn.length).filter fun i => i ∉ units.flatMap ChangeUnit.removed

/-- The candidate nodes that the state with all units applied stands for. -/
def covered (bn cn : List Node) (units : List ChangeUnit) : List Nat :=
  (kept bn units).map (fun i => ((matchNodes bn cn).2.find? i).getD 0) ++ units.flatMap ChangeUnit.added

variable (h : Split (comparison bn cn blockOf) names units)

include h

theorem partner_of_kept (hi : i ∈ kept bn units) :
    ∃ j, (matchNodes bn cn).2.find? i = some j ∧
      (comparison bn cn blockOf).candKey j = (comparison bn cn blockOf).baseKey i := by
  obtain ⟨hrange, hnot⟩ := mem_filter.mp hi
  apply partner_of_not_mem_diffBase (mem_range.mp hrange)
  intro hdiff
  obtain ⟨u, hu, hiu⟩ := h.removes i hdiff
  have hmem : i ∈ units.flatMap ChangeUnit.removed := mem_flatMap.mpr ⟨u, hu, hiu⟩
  simp [hmem] at hnot

theorem covered_lt (hj : j ∈ covered bn cn units) : j < cn.length := by
  rcases mem_append.mp hj with hj | hj
  · obtain ⟨i, hi, rfl⟩ := List.mem_map.mp hj
    obtain ⟨j, hinv, -⟩ := partner_of_kept h hi
    rw [hinv]
    exact (matched_lt (matched_of_inverse hinv)).1
  · obtain ⟨u, hu, hju⟩ := mem_flatMap.mp hj
    exact h.added_lt u hu j hju

theorem covered_nodup : (covered bn cn units).Nodup := by
  have hkept : ∀ i ∈ kept bn units, (matchNodes bn cn).1.find?
      (((matchNodes bn cn).2.find? i).getD 0) = some i := by
    intro i hi
    obtain ⟨j, hinv, -⟩ := partner_of_kept h hi
    rw [hinv]
    exact matched_of_inverse hinv
  apply List.Nodup.append
  · apply (nodup_map_iff_inj_on (nodup_range.filter _)).mpr
    intro i hi i' hi' heq
    have hsame := hkept i hi
    rw [heq, hkept i' hi'] at hsame
    exact (Option.some.inj hsame).symm
  · rw [nodup_flatMap]
    exact ⟨h.added_nodup, h.added_once⟩
  · intro j hj hadd
    obtain ⟨i, hi, rfl⟩ := List.mem_map.mp hj
    obtain ⟨u, hu, hju⟩ := mem_flatMap.mp hadd
    have hrem : i ∈ u.removed := h.drops u hu _ hju i (hkept i hi)
    have hnot := (mem_filter.mp hi).2
    have hmem : i ∈ units.flatMap ChangeUnit.removed := mem_flatMap.mpr ⟨u, hu, hrem⟩
    simp [hmem] at hnot

theorem mem_covered_iff (hj : j < cn.length) :
    j ∈ covered bn cn units ↔ ∀ i, (matchNodes bn cn).1.find? j = some i →
      (comparison bn cn blockOf).candKey j = (comparison bn cn blockOf).baseKey i →
      (matchNodes bn cn).2.find? i = some j := by
  constructor
  · intro hmem i hmatch hkey
    rcases mem_append.mp hmem with hmem | hmem
    · obtain ⟨i', hi', rfl⟩ := List.mem_map.mp hmem
      obtain ⟨j, hinv, -⟩ := partner_of_kept h hi'
      rw [hinv, getD_some, matched_of_inverse hinv] at hmatch
      cases hmatch
      rw [hinv, getD_some]
    · obtain ⟨u, hu, hju⟩ := mem_flatMap.mp hmem
      rcases h.added_cases u hu j hju with hdiff | ⟨i', hinv⟩
      · have htest := (mem_filter.mp hdiff).2
        have hmatch' : (comparison bn cn blockOf).matched.find? j = some i := hmatch
        rw [hmatch'] at htest
        simp [hkey] at htest
      · have hmatch' := matched_of_inverse hinv
        rw [hmatch] at hmatch'
        cases hmatch'
        exact hinv
  · intro hall
    by_cases hdiff : j ∈ (comparison bn cn blockOf).diffCand
    · obtain ⟨u, hu, hju⟩ := h.adds j hdiff
      exact mem_append_right _ (mem_flatMap.mpr ⟨u, hu, hju⟩)
    · obtain ⟨i, hmatch⟩ := matched_of_not_mem_diffCand hj hdiff
      have hinv := hall i hmatch (key_of_not_mem_diffCand hmatch hdiff)
      by_cases hrem : i ∈ units.flatMap ChangeUnit.removed
      · obtain ⟨u, hu, hiu⟩ := mem_flatMap.mp hrem
        exact mem_append_right _ (mem_flatMap.mpr ⟨u, hu, h.swaps u hu i hiu j hinv⟩)
      · apply mem_append_left
        apply List.mem_map.mpr
        refine ⟨i, mem_filter.mpr ⟨mem_range.mpr (matched_lt hmatch).2, by simpa using hrem⟩, ?_⟩
        rw [hinv, getD_some]

omit h

theorem covered_perm_iff (hc : (produced cn).Nodup) (h : Split (comparison bn cn blockOf) names units) :
    (covered bn cn units).Perm (List.range cn.length) ↔ ¬ Collides bn cn := by
  rw [perm_ext_iff_of_nodup (covered_nodup h) nodup_range, @collides_iff bn cn blockOf hc]
  constructor
  · rintro hall ⟨j, i, hmatch, hkey, hinv⟩
    have hlt := (matched_lt hmatch).1
    exact hinv ((mem_covered_iff h hlt).mp ((hall j).mpr (mem_range.mpr hlt)) i hmatch hkey)
  · intro hnone j
    rw [mem_range]
    refine ⟨covered_lt h, fun hlt => (mem_covered_iff h hlt).mpr fun i hmatch hkey => ?_⟩
    by_contra hinv
    exact hnone ⟨j, i, hmatch, hkey, hinv⟩

end Onnxsim.Versioning.Correspondence

namespace Onnxsim.Versioning.Interpolation

open List Option Lib.Dicts Lib.OrderedMaps Lib.Results
open Graphs Planning States
open Matching Versioning.Ordering Versioning.Units
open Initializers Correspondence

variable {τ δ : Type}

/-- The nodes by content, whatever their order, and the initializers by name and digest. -/
structure SameContents (digest : τ → Except VersionError δ) (s g : Graph τ) : Prop where
  nodes : (s.nodes.map nodeKey).Perm (g.nodes.map nodeKey)
  names : s.initNames.Perm g.initNames
  tensors : ∀ n t u, (n, t) ∈ s.initializers → (n, u) ∈ g.initializers → digest t = digest u

/-- The states that the units lead through. -/
structure Interpolates (reads : List UInt8 → List String) (digest : τ → Except VersionError δ)
    (base cand : Graph τ) (units : List ChangeUnit) : Prop where
  none_applied : ∃ s, state base cand units 0 (matchNodes base.nodes cand.nodes).2 = .ok s ∧
    SameContents digest s base
  all_applied : ∃ s, state base cand units units.length (matchNodes base.nodes cand.nodes).2 = .ok s ∧
    SameContents digest s cand
  removed_once : units.Pairwise fun u v => u.removed.Disjoint v.removed
  added_once : units.Pairwise fun u v => u.added.Disjoint v.added
  built : ∀ applied s, state base cand units applied (matchNodes base.nodes cand.nodes).2 = .ok s →
    Valid reads s

/-- What graphs in attributes read from outside is an input, or an initializer of both graphs. -/
def CapturesConstant (reads : List UInt8 → List String) (base cand : Graph τ) : Prop :=
  ∀ n ∈ base.nodes ++ cand.nodes, ∀ t ∈ n.captures reads,
    t ∈ base.inputs ∨ t ∈ base.initNames ∧ t ∈ cand.initNames

instance (reads : List UInt8 → List String) (base cand : Graph τ) :
    Decidable (CapturesConstant reads base cand) :=
  inferInstanceAs (Decidable (∀ n ∈ base.nodes ++ cand.nodes, ∀ t ∈ n.captures reads,
    t ∈ base.inputs ∨ t ∈ base.initNames ∧ t ∈ cand.initNames))

variable {inverse : SortedMap Nat Nat} {ns : List Node} {applied : Nat} {s : Graph τ}

section

variable {base cand : Graph τ} {units : List ChangeUnit}

theorem mem_statePool {e : Nat × Node} (h : e ∈ statePool base cand inverse units) :
    (∃ i, base.nodes[i]? = some e.2 ∧ ∀ u ∈ units, i ∉ u.removed) ∨
      ∃ j, cand.nodes[j]? = some e.2 ∧ ∃ u ∈ units, j ∈ u.added := by
  rcases mem_append.mp h with h | h
  · obtain ⟨⟨n, i⟩, hmem, rfl⟩ := List.mem_map.mp h
    obtain ⟨hidx, hnot⟩ := mem_filter.mp hmem
    refine .inl ⟨i, mem_zipIdx_iff_getElem?.mp hidx, fun u hu hi => ?_⟩
    have hrem : i ∈ units.flatMap ChangeUnit.removed := mem_flatMap.mpr ⟨u, hu, hi⟩
    simp [hrem] at hnot
  · obtain ⟨j, hj, hmap⟩ := mem_filterMap.mp h
    obtain ⟨n, hn, rfl⟩ := map_eq_some_iff.mp hmap
    obtain ⟨u, hu, hju⟩ := mem_flatMap.mp hj
    exact .inr ⟨j, hn, u, hu, hju⟩

theorem statePool_nil (base cand : Graph τ) (inverse : SortedMap Nat Nat) :
    (statePool base cand inverse []).map Prod.snd = base.nodes := by
  have hall : base.nodes.zipIdx.filter (fun e => e.2 ∉ ([] : List Nat)) = base.nodes.zipIdx := by simp
  rw [statePool, flatMap_nil, flatMap_nil, filterMap_nil, append_nil, hall, List.map_map]
  exact zipIdx_map_fst 0 base.nodes

theorem statePool_keys {blockOf : List Nat} {names : List String}
    (h : Split (comparison base.nodes cand.nodes blockOf) names units) :
    ((statePool base cand (matchNodes base.nodes cand.nodes).2 units).map fun e => some (nodeKey e.2)) =
      (covered base.nodes cand.nodes units).map (comparison base.nodes cand.nodes blockOf).candKey := by
  rw [statePool, covered, map_append, map_append]
  congr 1
  · have hbase : ∀ e ∈ base.nodes.zipIdx.filter (fun e => e.2 ∉ units.flatMap ChangeUnit.removed),
        some (nodeKey e.1) = (comparison base.nodes cand.nodes blockOf).baseKey e.2 := by
      intro e he
      have hidx := mem_zipIdx_iff_getElem?.mp (mem_filter.mp he).1
      change some (nodeKey e.1) = (base.nodes[e.2]?).map nodeKey
      rw [hidx, map_some]
    have hkept : (base.nodes.zipIdx.filter fun e => e.2 ∉ units.flatMap ChangeUnit.removed).map Prod.snd =
        kept base.nodes units := by
      rw [kept, range_eq_range', ← zipIdx_map_snd 0 base.nodes, List.filter_map]
      rfl
    rw [List.map_map, List.map_map]
    change (base.nodes.zipIdx.filter fun e => e.2 ∉ units.flatMap ChangeUnit.removed).map
      (fun e => some (nodeKey e.1)) = _
    rw [map_congr_left hbase, ← hkept, List.map_map]
    apply map_congr_left
    intro e he
    have hmem : e.2 ∈ kept base.nodes units := hkept ▸ List.mem_map_of_mem he
    obtain ⟨j, hinv, hkey⟩ := partner_of_kept h hmem
    change _ = (comparison base.nodes cand.nodes blockOf).candKey
      (((matchNodes base.nodes cand.nodes).2.find? e.2).getD 0)
    rw [hinv, getD_some, hkey]
  · have hlt : ∀ j ∈ units.flatMap ChangeUnit.added, j < cand.nodes.length := by
      intro j hj
      obtain ⟨u, hu, hju⟩ := mem_flatMap.mp hj
      exact h.added_lt u hu j hju
    generalize units.flatMap ChangeUnit.added = added at hlt
    induction added with
    | nil => rfl
    | cons j added ih =>
      obtain ⟨hj, hrest⟩ := forall_mem_cons.mp hlt
      have hget : cand.nodes[j]? = some cand.nodes[j] := getElem?_eq_getElem hj
      have hkey : (comparison base.nodes cand.nodes blockOf).candKey j = some (nodeKey cand.nodes[j]) := by
        change (cand.nodes[j]?).map nodeKey = _
        rw [hget, map_some]
      rw [filterMap_cons_some (by rw [hget]; rfl), map_cons, map_cons, hkey, ih hrest]

theorem range_keys (bn cn : List Node) (blockOf : List Nat) :
    (List.range cn.length).map (comparison bn cn blockOf).candKey = cn.map fun n => some (nodeKey n) := by
  apply ext_getElem
  · simp
  · intro i h₁ h₂
    have hi : i < cn.length := by simpa using h₂
    rw [getElem_map, getElem_map, getElem_range]
    change (cn[i]?).map nodeKey = _
    rw [getElem?_eq_getElem hi, map_some]

theorem produced_of_keys {ms : List Node} (h : (ns.map nodeKey).Perm (ms.map nodeKey)) :
    (produced ns).Perm (produced ms) := by
  have hkeys : ∀ l : List Node, produced l =
      (l.map nodeKey).flatMap fun key => key.outputs.filter fun t => t ≠ "" := by
    intro l
    rw [flatMap_map]
    rfl
  rw [hkeys, hkeys]
  exact h.flatMap_right _

theorem keys_perm_of_some {ms : List Node}
    (h : (ns.map fun n => some (nodeKey n)).Perm (ms.map fun n => some (nodeKey n))) :
    (ns.map nodeKey).Perm (ms.map nodeKey) := by
  have hsome : ∀ l : List Node, l.map nodeKey = (l.map fun n => some (nodeKey n)).filterMap id := by
    intro l
    rw [filterMap_map]
    exact (congrFun (filterMap_eq_map (f := nodeKey)) l).symm
  rw [hsome, hsome]
  exact h.filterMap _

variable [DecidableEq δ] {digest : τ → Except VersionError δ} {fusion : String}

theorem plan_cases (h : plan digest base cand fusion = .ok units) :
    ∃ blockOf names, initDiff digest base cand = .ok names ∧
      Split (comparison base.nodes cand.nodes blockOf) names units := by
  obtain ⟨blockOf, -, h⟩ := bind_eq_ok h
  obtain ⟨names, hnames, h⟩ := bind_eq_ok h
  cases h
  exact ⟨blockOf, names, hnames, split_comparison names⟩

omit [DecidableEq δ] in
theorem state_cases (h : state base cand units applied inverse = .ok s) :
    ∃ ns, topoOrder (statePool base cand inverse (units.take applied))
        (base.inputs ++ (stateInits base cand (units.take applied)).keys) base.outputs = .ok ns ∧
      s = ⟨ns, (stateInits base cand (units.take applied)).entries, base.inputs, base.outputs⟩ := by
  obtain ⟨ns, hns, h⟩ := bind_eq_ok h
  cases h
  exact ⟨ns, hns, rfl⟩

omit [DecidableEq δ] in
theorem state_ok (h : topoOrder (statePool base cand inverse (units.take applied))
      (base.inputs ++ (stateInits base cand (units.take applied)).keys) base.outputs = .ok ns) :
    state base cand units applied inverse =
      .ok ⟨ns, (stateInits base cand (units.take applied)).entries, base.inputs, base.outputs⟩ :=
  ok_bind h _

variable {reads : List UInt8 → List String} {blockOf : List Nat} {names : List String} {us : List ChangeUnit}
  {t : String} {n : Node}

theorem base_fresh (hb : Valid reads base) (hc : Valid reads cand)
    (hsplit : Split (comparison base.nodes cand.nodes blockOf) names units) (hus : us ⊆ units) {i : Nat}
    (hn : base.nodes[i]? = some n) (hkept : ∀ u ∈ us, i ∉ u.removed) (hne : t ≠ "") (ht : t ∈ n.outputs) :
    t ∉ (stateInits base cand us).keys := by
  have hprod : t ∈ produced base.nodes := mem_produced.mpr ⟨hne, n, mem_of_getElem? hn, ht⟩
  rw [mem_keys_stateInits hb.names hc.names]
  split
  · next hnamed =>
    obtain ⟨u, hu, htu⟩ := hnamed
    intro hcand
    have hdiff : i ∈ (comparison base.nodes cand.nodes blockOf).diffBase := by
      by_contra hnot
      obtain ⟨j, hinv, hkey⟩ := partner_of_not_mem_diffBase (List.getElem?_eq_some_iff.mp hn).1 hnot
      have hkey' : (cand.nodes[j]?).map nodeKey = (base.nodes[i]?).map nodeKey := hkey
      rw [hn, map_some] at hkey'
      obtain ⟨m, hm, hmn⟩ := map_eq_some_iff.mp hkey'
      have hout : m.outputs = n.outputs := congrArg NodeKey.outputs hmn
      apply hc.fresh t (mem_produced.mpr ⟨hne, m, mem_of_getElem? hm, hout ▸ ht⟩)
      exact mem_append_right _ hcand
    have hitem : t ∈ ((comparison base.nodes cand.nodes blockOf).baseItem i).produced := by
      change t ∈ (base.nodes[i]?).elim [] Node.outputs
      rw [hn]
      exact ht
    exact hkept u hu (hsplit.removed_with_init u (hus hu) t htu hne i hdiff hitem)
  · intro hbase
    exact hb.fresh t hprod (mem_append_right _ hbase)

theorem cand_fresh (hb : Valid reads base) (hc : Valid reads cand) (hnames : initDiff digest base cand = .ok names)
    (hsplit : Split (comparison base.nodes cand.nodes blockOf) names units) (hus : us ⊆ units) {j : Nat}
    (hn : cand.nodes[j]? = some n) {u : ChangeUnit} (hu : u ∈ us) (hj : j ∈ u.added) (hne : t ≠ "")
    (ht : t ∈ n.outputs) : t ∉ (stateInits base cand us).keys := by
  have hout : t ∉ cand.initNames := by
    intro hcand
    apply hc.fresh t (mem_produced.mpr ⟨hne, n, mem_of_getElem? hn, ht⟩)
    exact mem_append_right _ hcand
  rw [mem_keys_stateInits hb.names hc.names]
  split
  · exact hout
  · next hnamed =>
    intro hbase
    have hdiffers : t ∈ names := by
      by_contra hnot
      exact hout ((same_of_not_differs hb.names hc.names hnames hnot).1.mp hbase)
    by_cases hdiff : j ∈ (comparison base.nodes cand.nodes blockOf).diffCand
    · have hitem : t ∈ ((comparison base.nodes cand.nodes blockOf).candItem j).produced := by
        change t ∈ (cand.nodes[j]?).elim [] Node.outputs
        rw [hn]
        exact ht
      exact hnamed ⟨u, hu, hsplit.init_with_added u (hus hu) j hj hdiff t hdiffers hne hitem⟩
    · obtain ⟨i, hmatch⟩ := matched_of_not_mem_diffCand (List.getElem?_eq_some_iff.mp hn).1 hdiff
      have hkey : (cand.nodes[j]?).map nodeKey = (base.nodes[i]?).map nodeKey :=
        key_of_not_mem_diffCand hmatch hdiff
      rw [hn, map_some] at hkey
      obtain ⟨m, hm, hmn⟩ := map_eq_some_iff.mp hkey.symm
      have hsame : m.outputs = n.outputs := congrArg NodeKey.outputs hmn
      apply hb.fresh t (mem_produced.mpr ⟨hne, m, mem_of_getElem? hm, hsame ▸ ht⟩)
      exact mem_append_right _ hbase

theorem state_valid (hb : Valid reads base) (hc : Valid reads cand) (hin : cand.inputs = base.inputs)
    (hcap : CapturesConstant reads base cand) (hnames : initDiff digest base cand = .ok names)
    (hsplit : Split (comparison base.nodes cand.nodes blockOf) names units)
    (h : state base cand units applied (matchNodes base.nodes cand.nodes).2 = .ok s) : Valid reads s := by
  obtain ⟨ns, hns, rfl⟩ := state_cases h
  obtain ⟨hperm, hsingle, hordered, houts⟩ := topoOrder_spec hns
  have hpool : ∀ n ∈ ns, (∃ i, base.nodes[i]? = some n ∧ ∀ u ∈ units.take applied, i ∉ u.removed) ∨
      ∃ j, cand.nodes[j]? = some n ∧ ∃ u ∈ units.take applied, j ∈ u.added := by
    intro n hn
    obtain ⟨e, he, rfl⟩ := List.mem_map.mp (hperm.mem_iff.mp hn)
    exact mem_statePool he
  refine ⟨Dict.nodup _, hsingle, fun t ht havail => ?_, fun before n after heq t ht hne => ?_, houts⟩
  · obtain ⟨hne, n, hn, htn⟩ := mem_produced.mp ht
    rcases hpool n hn with ⟨i, hi, hkept⟩ | ⟨j, hj, u, hu, hju⟩
    · rcases mem_append.mp havail with hinput | hinit
      · apply hb.fresh t (mem_produced.mpr ⟨hne, n, mem_of_getElem? hi, htn⟩)
        exact mem_append_left _ hinput
      · exact base_fresh hb hc hsplit (take_subset _ _) hi hkept hne htn hinit
    · rcases mem_append.mp havail with hinput | hinit
      · apply hc.fresh t (mem_produced.mpr ⟨hne, n, mem_of_getElem? hj, htn⟩)
        exact mem_append_left _ (hin ▸ hinput)
      · exact cand_fresh hb hc hnames hsplit (take_subset _ _) hj hu hju hne htn hinit
  · rcases mem_append.mp ht with ht | ht
    · exact hordered before n after heq t ht hne
    · left
      have hn : n ∈ base.nodes ++ cand.nodes := by
        have heq' : ns = before ++ n :: after := heq
        have hmem : n ∈ ns := heq' ▸ mem_append_right _ mem_cons_self
        rcases hpool n hmem with ⟨i, hi, -⟩ | ⟨j, hj, -⟩
        · exact mem_append_left _ (mem_of_getElem? hi)
        · exact mem_append_right _ (mem_of_getElem? hj)
      rcases hcap n hn t ht with hinput | ⟨hbase, hcand⟩
      · exact mem_append_left _ hinput
      · apply mem_append_right
        have hkeys : t ∈ (stateInits base cand (units.take applied)).keys := by
          rw [mem_keys_stateInits hb.names hc.names]
          split
          · exact hcand
          · exact hbase
        exact hkeys

theorem Ordered.inputs {avail avail' : List String} (h : Ordered (Node.uses reads) avail ns)
    (hsub : ∀ t ∈ avail, t ∈ avail') : Ordered Node.inputs avail' ns := by
  intro before n after heq t ht hne
  exact (h before n after heq t (mem_append_left _ ht) hne).imp_left (hsub t)

omit [DecidableEq δ] in
theorem none_applied (hb : Valid reads base) (units : List ChangeUnit) (inverse : SortedMap Nat Nat) :
    ∃ s, state base cand units 0 inverse = .ok s ∧ SameContents digest s base := by
  have hinits : (stateInits base cand []).entries = base.initializers := stateInits_nil hb.names
  have havail : base.inputs ++ (stateInits base cand []).keys = base.avail := by
    rw [Dict.keys, hinits]
    rfl
  have hpool := statePool_nil base cand inverse
  obtain ⟨ns, hns⟩ : ∃ ns, topoOrder (statePool base cand inverse [])
      (base.inputs ++ (stateInits base cand []).keys) base.outputs = .ok ns := by
    rw [havail]
    have hordered : Ordered Node.inputs base.avail base.nodes := Ordered.inputs hb.ordered fun _ ht => ht
    have hsingle : (produced ((statePool base cand inverse []).map Prod.snd)).Nodup := hpool ▸ hb.single
    refine topoOrder_ok hsingle hordered hb.single (fun e he => ?_) (fun t ht => hpool ▸ ht) hb.outputs
    refine ⟨e.2, ?_, rfl, rfl⟩
    rw [← hpool]
    exact List.mem_map_of_mem he
  refine ⟨_, state_ok hns, ?_, ?_, ?_⟩
  · rw [← hpool]
    exact (topoOrder_spec hns).1.map _
  · change ((stateInits base cand []).entries.map Prod.fst).Perm _
    rw [hinits]
    exact .refl _
  · intro n t u ht hu
    have ht' : (n, t) ∈ base.initializers := hinits ▸ ht
    have hsame : (n, t) = (n, u) := inj_on_of_nodup_map hb.names ht' hu rfl
    cases hsame
    rfl

theorem all_inits (hb : Valid reads base) (hc : Valid reads cand) (hnames : initDiff digest base cand = .ok names)
    (hsplit : Split (comparison base.nodes cand.nodes blockOf) names units) :
    (stateInits base cand units).keys.Perm cand.initNames ∧
      ∀ n t u, (n, t) ∈ (stateInits base cand units).entries → (n, u) ∈ cand.initializers →
        digest t = digest u := by
  have hiff : ∀ n, (∃ u ∈ units, n ∈ u.names) ↔ n ∈ names := fun n => (hsplit.replaces n).symm
  constructor
  · have hnd : (stateInits base cand units).keys.Nodup := Dict.nodup _
    rw [perm_ext_iff_of_nodup hnd hc.names]
    intro n
    rw [mem_keys_stateInits hb.names hc.names, if_congr (hiff n) rfl rfl]
    split
    · exact Iff.rfl
    · next hnot => exact (same_of_not_differs hb.names hc.names hnames hnot).1
  · intro n t u ht hu
    rw [← Dict.get?_eq_some_iff, get?_stateInits hb.names hc.names, if_congr (hiff n) rfl rfl] at ht
    split at ht
    · have hsame : (n, t) = (n, u) := inj_on_of_nodup_map hc.names ht hu rfl
      cases hsame
      rfl
    · next hnot => exact (same_of_not_differs hb.names hc.names hnames hnot).2 t u ht hu

theorem all_applied (hb : Valid reads base) (hc : Valid reads cand) (hin : cand.inputs = base.inputs)
    (hout : cand.outputs = base.outputs) (hnames : initDiff digest base cand = .ok names)
    (hsplit : Split (comparison base.nodes cand.nodes blockOf) names units)
    (hcover : ¬ Collides base.nodes cand.nodes) :
    ∃ s, state base cand units units.length (matchNodes base.nodes cand.nodes).2 = .ok s ∧
      SameContents digest s cand := by
  obtain ⟨hkeys, htensors⟩ := all_inits hb hc hnames hsplit
  have hpool : (((statePool base cand (matchNodes base.nodes cand.nodes).2 units).map Prod.snd).map nodeKey).Perm
      (cand.nodes.map nodeKey) := by
    apply keys_perm_of_some
    rw [List.map_map]
    change ((statePool base cand (matchNodes base.nodes cand.nodes).2 units).map
      fun e => some (nodeKey e.2)).Perm _
    rw [statePool_keys hsplit, ← range_keys base.nodes cand.nodes blockOf]
    exact ((covered_perm_iff hc.single hsplit).mpr hcover).map _
  have hprod := produced_of_keys hpool
  have havail : ∀ t ∈ cand.avail, t ∈ base.inputs ++ (stateInits base cand units).keys := by
    intro t ht
    rcases mem_append.mp ht with hinput | hinit
    · exact mem_append_left _ (hin ▸ hinput)
    · exact mem_append_right _ (hkeys.mem_iff.mpr hinit)
  obtain ⟨ns, hns⟩ : ∃ ns, topoOrder (statePool base cand (matchNodes base.nodes cand.nodes).2 units)
      (base.inputs ++ (stateInits base cand units).keys) base.outputs = .ok ns := by
    have hordered : Ordered Node.inputs (base.inputs ++ (stateInits base cand units).keys) cand.nodes :=
      Ordered.inputs hc.ordered havail
    refine topoOrder_ok (hprod.nodup_iff.mpr hc.single) hordered hc.single (fun e he => ?_)
      (fun t ht => hprod.mem_iff.mpr ht) fun o ho => ?_
    · have hmem : nodeKey e.2 ∈ cand.nodes.map nodeKey :=
        hpool.mem_iff.mp (List.mem_map_of_mem (List.mem_map_of_mem he))
      obtain ⟨m, hm, hkey⟩ := List.mem_map.mp hmem
      exact ⟨m, hm, congrArg NodeKey.inputs hkey, congrArg NodeKey.outputs hkey⟩
    · exact (hc.outputs o (hout ▸ ho)).imp_left (havail o)
  have htake : units.take units.length = units := take_length
  rw [← htake] at hns
  refine ⟨_, state_ok hns, ?_, ?_, ?_⟩
  · rw [htake] at hns
    exact ((topoOrder_spec hns).1.map _).trans hpool
  · rw [htake]
    exact hkeys
  · rw [htake]
    exact htensors

omit [DecidableEq δ] in
theorem not_collides (hc : Valid reads cand) (hsplit : Split (comparison base.nodes cand.nodes blockOf) names units)
    (h : state base cand units units.length (matchNodes base.nodes cand.nodes).2 = .ok s)
    (hsame : SameContents digest s cand) : ¬ Collides base.nodes cand.nodes := by
  obtain ⟨ns, hns, rfl⟩ := state_cases h
  rw [take_length] at hns
  have hlen : (covered base.nodes cand.nodes units).length = cand.nodes.length := by
    have hpool := congrArg List.length (statePool_keys hsplit)
    have horder := (topoOrder_spec hns).1.length_eq
    have hnodes := hsame.nodes.length_eq
    simp only [length_map] at hpool horder hnodes
    omega
  rw [← covered_perm_iff hc.single hsplit]
  have hsub : covered base.nodes cand.nodes units ⊆ List.range cand.nodes.length := fun j hj =>
    mem_range.mpr (covered_lt hsplit hj)
  apply (subperm_of_subset (covered_nodup hsplit) hsub).perm_of_length_le
  rw [hlen, length_range]

end

variable {reads : List UInt8 → List String}

/-- The states lead from the base to the candidate if and only if no two candidate nodes collide. -/
theorem interpolates_iff [DecidableEq δ] {digest : τ → Except VersionError δ} {base cand : Graph τ}
    {fusion : String} {units : List ChangeUnit} (hb : Valid reads base) (hc : Valid reads cand)
    (hin : cand.inputs = base.inputs) (hout : cand.outputs = base.outputs)
    (hcap : CapturesConstant reads base cand) (h : plan digest base cand fusion = .ok units) :
    Interpolates reads digest base cand units ↔ ¬ Collides base.nodes cand.nodes := by
  obtain ⟨blockOf, names, hnames, hsplit⟩ := plan_cases h
  constructor
  · intro hall
    obtain ⟨s, hs, hsame⟩ := hall.all_applied
    exact not_collides hc hsplit hs hsame
  · intro hnot
    refine ⟨none_applied hb units _, all_applied hb hc hin hout hnames hsplit hnot, hsplit.removed_once,
      hsplit.added_once, fun applied s hs => ?_⟩
    exact state_valid hb hc hin hcap hnames hsplit hs

/-- One node of the base is replaced; another one omits its first output. -/
theorem interpolates_tanh :
    let lstm : Node := ⟨"", "", "LSTM", ["x", "w", "r"], ["", "h"], []⟩
    let base : Graph Nat := ⟨[lstm, ⟨"", "", "Relu", ["h"], ["y"], []⟩], [("w", 1), ("r", 2)], ["x"], ["y"]⟩
    let cand : Graph Nat := ⟨[lstm, ⟨"", "", "Tanh", ["h"], ["y"], []⟩], [("w", 1), ("r", 3)], ["x"], ["y"]⟩
    ∃ units, plan Except.ok base cand "default" = .ok units ∧
      Interpolates (fun _ => []) Except.ok base cand units := by
  intro lstm base cand
  have hplan : (plan Except.ok base cand "default").isOk = true := by decide
  obtain ⟨units, hunits⟩ := exists_ok_of_isOk hplan
  have hb : Valid (fun _ => []) base := by decide
  have hc : Valid (fun _ => []) cand := by decide
  have hcap : CapturesConstant (fun _ => []) base cand := by decide
  have hnot : ¬ Collides base.nodes cand.nodes := by
    rintro ⟨i, j, j', a, b, d, -, hlt, -, -, hd, -, hhead, -⟩
    have hj' : j' < 2 := (List.getElem?_eq_some_iff.mp hd).1
    have hone : j' = 1 := by omega
    subst hone
    cases hd
    simp at hhead
  refine ⟨units, hunits, ?_⟩
  exact (interpolates_iff hb hc rfl rfl hcap hunits).mpr hnot

/-- Two nodes omit their first output, and only the second is changed: the first one is removed with it. -/
theorem omitted_output_lost :
    let reads : List UInt8 → List String := fun _ => []
    let first : Node := ⟨"", "", "LSTM", ["x", "w", "r"], ["", "h0"], []⟩
    let base : Graph Nat := ⟨[first, ⟨"", "", "LSTM", ["x", "w", "s"], ["", "h1"], []⟩], [], ["x", "w", "r", "s"],
      ["h0", "h1"]⟩
    let cand : Graph Nat := ⟨[first, ⟨"", "", "GRU", ["x", "w", "s"], ["", "h1"], []⟩], [], ["x", "w", "r", "s"],
      ["h0", "h1"]⟩
    Valid reads base ∧ Valid reads cand ∧ ∃ units, plan Except.ok base cand "node" = .ok units ∧
      ¬ Interpolates reads Except.ok base cand units := by
  intro reads first base cand
  have hplan : (plan Except.ok base cand "node").isOk = true := by decide
  have hstate : (plan Except.ok base cand "node" >>= fun units =>
      state base cand units units.length (matchNodes base.nodes cand.nodes).2).isOk = false := by decide
  obtain ⟨units, hunits⟩ := exists_ok_of_isOk hplan
  refine ⟨by decide, by decide, units, hunits, fun h => ?_⟩
  obtain ⟨s, hs, -⟩ := h.all_applied
  rw [ok_bind hunits, hs] at hstate
  cases hstate

end Onnxsim.Versioning.Interpolation
