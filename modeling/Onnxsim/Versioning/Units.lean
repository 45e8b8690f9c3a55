import Onnxsim.Versioning.States

namespace Onnxsim.Versioning.Units

open List Lib.Classes Lib.Dicts
open Graphs Planning

variable {x y : Item} {key : BlockKey} {g : List Nat} {k i : Nat} {items : List Item}

theorem keyPairs_rep (first : Dict BlockKey Nat) (k : Nat) (items : List Item) :
    ∃ rep : BlockKey → Nat, (∀ key f, first.get? key = some f → rep key = f) ∧
      ∀ (a : Nat) item key, items[a]? = some item → item.key = some key →
        k + a = rep key ∨ (k + a, rep key) ∈ keyPairs first k items := by
  induction items generalizing first k with
  | nil => exact ⟨fun key => (first.get? key).getD 0, fun key f hf => by simp [hf], by simp⟩
  | cons x rest ih =>
    have hshift (a : Nat) : k + 1 + a = k + (a + 1) := by omega
    rw [keyPairs]
    cases hx : x.key with
    | none =>
      obtain ⟨rep, hfirst, hrep⟩ := ih first (k + 1)
      refine ⟨rep, hfirst, fun a item key ha hkey => ?_⟩
      cases a with
      | zero =>
        cases ha
        rw [hx] at hkey
        cases hkey
      | succ a => exact hshift a ▸ hrep a item key ha hkey
    | some key₀ =>
      dsimp only
      cases hget : first.get? key₀ with
      | some f =>
        obtain ⟨rep, hfirst, hrep⟩ := ih first (k + 1)
        refine ⟨rep, hfirst, fun a item key ha hkey => ?_⟩
        cases a with
        | zero =>
          cases ha
          rw [hx] at hkey
          cases hkey
          right
          rw [hfirst key₀ f hget]
          exact mem_cons_self
        | succ a => exact (hshift a ▸ hrep a item key ha hkey).imp_right (mem_cons_of_mem _)
      | none =>
        obtain ⟨rep, hfirst, hrep⟩ := ih (first.set key₀ k) (k + 1)
        refine ⟨rep, fun key f hf => ?_, fun a item key ha hkey => ?_⟩
        · apply hfirst
          have hne : key ≠ key₀ := by
            rintro rfl
            rw [hget] at hf
            cases hf
          rw [Dict.get?_set, if_neg hne, hf]
        · cases a with
          | zero =>
            cases ha
            rw [hx] at hkey
            cases hkey
            left
            exact (hfirst key₀ k (by rw [Dict.get?_set, if_pos rfl])).symm
          | succ a => exact hshift a ▸ hrep a item key ha hkey

variable {a b l : Nat} {t : String}

theorem find_eq_of_key (ha : items[a]? = some x) (hb : items[b]? = some y) (hx : x.key = some key)
    (hy : y.key = some key) :
    (parent items).find a = (parent items).find b := by
  obtain ⟨rep, -, hrep⟩ := keyPairs_rep .empty 0 items
  have hroot {c : Nat} {z : Item} (hc : items[c]? = some z) (hz : z.key = some key) :
      (parent items).find c = (parent items).find (rep key) := by
    rcases hrep c z key hc hz with heq | hmem
    · rw [← heq, Nat.zero_add]
    · rw [Nat.zero_add] at hmem
      have hpair : (c, rep key) ∈ flowPairs items ++ producerPairs items ++ keyPairs .empty 0 items :=
        mem_append_right _ hmem
      exact UnionFind.find_eq_of_mem hpair
  rw [hroot ha hx, hroot hb hy]

theorem mem_producers (ha : items[a]? = some x) (hne : t ≠ "") (ht : t ∈ x.produced) :
    ∃ ks, (t, ks) ∈ (producers items).entries ∧ a ∈ ks := by
  have hmem : (t, a) ∈ items.zipIdx.flatMap fun e =>
      (e.1.produced.filter fun t => t ≠ "").map fun t => (t, e.2) := by
    apply mem_flatMap.mpr
    refine ⟨(x, a), mem_zipIdx_iff_getElem?.mpr ha, ?_⟩
    exact List.mem_map_of_mem (mem_filter.mpr ⟨ht, by simpa using hne⟩)
  refine ⟨_, Dict.mem_collect_iff.mpr ⟨List.mem_map_of_mem hmem, rfl⟩, ?_⟩
  apply List.mem_map.mpr
  exact ⟨(t, a), mem_filter.mpr ⟨hmem, by simp⟩, rfl⟩

theorem find_eq_of_produced (ha : items[a]? = some x) (hb : items[b]? = some y) (hne : t ≠ "") (hx : t ∈ x.produced)
    (hy : t ∈ y.produced) :
    (parent items).find a = (parent items).find b := by
  obtain ⟨ks, hks, hak⟩ := mem_producers ha hne hx
  obtain ⟨ks', hks', hbk⟩ := mem_producers hb hne hy
  have hsame : ks' = ks := by
    rw [← Dict.get?_eq_some_iff] at hks hks'
    rw [hks] at hks'
    exact (Option.some.inj hks').symm
  subst hsame
  cases ks' with
  | nil => cases hak
  | cons f rest =>
    have hroot {c : Nat} (hc : c ∈ f :: rest) : (parent items).find c = (parent items).find f := by
      rcases mem_cons.mp hc with rfl | hc
      · rfl
      · have hpair : (c, f) ∈ flowPairs items ++ producerPairs items ++ keyPairs .empty 0 items := by
          apply mem_append_left
          apply mem_append_right
          apply mem_flatMap.mpr
          exact ⟨_, hks, List.mem_map_of_mem hc⟩
        exact UnionFind.find_eq_of_mem hpair
    rw [hroot hak, hroot hbk]

theorem groups_eq (items : List Item) : ∃ roots : List Nat, roots.Nodup ∧
    (∀ k < items.length, (parent items).find k ∈ roots) ∧
    groups items = roots.map fun r => (List.range items.length).filter fun k => (parent items).find k = r := by
  refine ⟨(Dict.collect ((List.range items.length).map fun k => ((parent items).find k, k))).keys,
    Dict.nodup _, fun k hk => ?_, ?_⟩
  · rw [Dict.mem_keys_collect, List.map_map]
    exact List.mem_map_of_mem (mem_range.mpr hk)
  · rw [groups, Dict.keys, List.map_map]
    apply map_congr_left
    rintro ⟨r, ks⟩ hmem
    rw [Dict.mem_collect_iff] at hmem
    rw [hmem.2, List.filter_map, List.map_map]
    exact map_id'' (fun _ => rfl) _

theorem orderedGroups_perm (items : List Item) : (orderedGroups items).Perm (groups items) :=
  perm_insertionSort _ _

theorem mem_of_find_eq (hg : g ∈ orderedGroups items) (hk : k ∈ g) (hl : l < items.length)
    (h : (parent items).find l = (parent items).find k) : l ∈ g := by
  obtain ⟨roots, -, -, heq⟩ := groups_eq items
  rw [(orderedGroups_perm items).mem_iff, heq] at hg
  obtain ⟨r, -, rfl⟩ := List.mem_map.mp hg
  have hr := (mem_filter.mp hk).2
  rw [decide_eq_true_eq] at hr
  apply mem_filter.mpr
  exact ⟨mem_range.mpr hl, by simpa using h.trans hr⟩

theorem exists_group (hk : k < items.length) : ∃ g ∈ orderedGroups items, k ∈ g := by
  obtain ⟨roots, -, hall, heq⟩ := groups_eq items
  refine ⟨(List.range items.length).filter fun l => (parent items).find l = (parent items).find k, ?_,
    mem_filter.mpr ⟨mem_range.mpr hk, by simp⟩⟩
  rw [(orderedGroups_perm items).mem_iff, heq]
  exact List.mem_map_of_mem (hall k hk)

theorem orderedGroups_pairwise (items : List Item) : (orderedGroups items).Pairwise fun g h =>
    ∀ k ∈ g, ∀ l ∈ h, (parent items).find k ≠ (parent items).find l := by
  have hsymm : ∀ {g h : List Nat}, (∀ k ∈ g, ∀ l ∈ h, (parent items).find k ≠ (parent items).find l) →
      ∀ k ∈ h, ∀ l ∈ g, (parent items).find k ≠ (parent items).find l := fun hgh k hk l hl heq =>
    hgh l hl k hk heq.symm
  obtain ⟨roots, hnd, -, heq⟩ := groups_eq items
  rw [(orderedGroups_perm items).pairwise_iff hsymm, heq, pairwise_map]
  apply hnd.imp
  intro r s hrs k hk l hl hfind
  have hk' := (mem_filter.mp hk).2
  have hl' := (mem_filter.mp hl).2
  rw [decide_eq_true_eq] at hk' hl'
  exact hrs (hk'.symm.trans (hfind.trans hl'))

def HoldsKey (items : List Item) (g : List Nat) (key : BlockKey) : Prop :=
  ∃ k ∈ g, ∃ x, items[k]? = some x ∧ x.key = some key

theorem mem_of_holdsKey (hg : g ∈ orderedGroups items) (h : HoldsKey items g key) (hl : items[l]? = some y)
    (hy : y.key = some key) :
    l ∈ g := by
  obtain ⟨k, hk, x, hx, hkey⟩ := h
  exact mem_of_find_eq hg hk (List.getElem?_eq_some_iff.mp hl).1 (find_eq_of_key hl hx hy hkey)

theorem mem_sortGroup : x ∈ sortGroup items g ↔ ∃ k ∈ g, items[k]? = some x := by
  rw [sortGroup, mem_filterMap]
  simp only [mem_insertionSort]

variable {c : Comparison} {names : List String}

theorem mem_items : x ∈ c.items names ↔
    (∃ i ∈ c.diffBase, c.baseItem i = x) ∨ (∃ j ∈ c.diffCand, c.candItem j = x) ∨
      ∃ n ∈ names, Comparison.initItem n = x := by
  rw [Comparison.items, mem_append, mem_append, List.mem_map, List.mem_map, List.mem_map, or_assoc]

variable {index j : Nat}

theorem mem_removed :
    i ∈ (buildUnit c index (sortGroup (c.items names) g)).removed ↔
      i < c.bn.length ∧ HoldsKey (c.items names) g (.block (c.block i)) := by
  simp only [buildUnit, mem_filter, mem_range, List.any_eq_true, Bool.or_eq_true, decide_eq_true_eq]
  apply and_congr_right
  intro _
  constructor
  · rintro ⟨x, hx, hcase⟩
    obtain ⟨k, hk, hkx⟩ := mem_sortGroup.mp hx
    refine ⟨k, hk, x, hkx, ?_⟩
    rcases hcase with href | hkey
    · rcases mem_items.mp (mem_of_getElem? hkx) with ⟨i', -, rfl⟩ | ⟨j, -, rfl⟩ | ⟨n, -, rfl⟩
      · cases href
        rfl
      · cases href
      · cases href
    · exact hkey
  · rintro ⟨k, hk, x, hkx, hkey⟩
    exact ⟨x, mem_sortGroup.mpr ⟨k, hk, hkx⟩, .inr hkey⟩

theorem mem_added :
    j ∈ (buildUnit c index (sortGroup (c.items names) g)).added ↔ j < c.cn.length ∧
      ((j ∈ c.diffCand ∧ ∃ k ∈ g, (c.items names)[k]? = some (c.candItem j)) ∨
        ∃ i < c.bn.length, HoldsKey (c.items names) g (.block (c.block i)) ∧ c.inverse.find? i = some j) := by
  simp only [buildUnit, mem_filter, mem_range, List.any_eq_true, Bool.or_eq_true, Bool.and_eq_true,
    decide_eq_true_eq]
  apply and_congr_right
  intro _
  constructor
  · rintro ⟨x, hx, hcase⟩
    obtain ⟨k, hk, hkx⟩ := mem_sortGroup.mp hx
    rcases hcase with href | ⟨i, hi, hkey, hinv⟩
    · rcases mem_items.mp (mem_of_getElem? hkx) with ⟨i, -, rfl⟩ | ⟨j', hj', rfl⟩ | ⟨n, -, rfl⟩
      · cases href
      · cases href
        exact .inl ⟨hj', k, hk, hkx⟩
      · cases href
    · exact .inr ⟨i, hi, ⟨k, hk, x, hkx, hkey⟩, hinv⟩
  · rintro (⟨-, k, hk, hkx⟩ | ⟨i, hi, ⟨k, hk, x, hkx, hkey⟩, hinv⟩)
    · exact ⟨_, mem_sortGroup.mpr ⟨k, hk, hkx⟩, .inl rfl⟩
    · exact ⟨x, mem_sortGroup.mpr ⟨k, hk, hkx⟩, .inr ⟨i, hi, hkey, hinv⟩⟩

theorem mem_names {n : String} :
    n ∈ (buildUnit c index (sortGroup (c.items names) g)).names ↔
      n ∈ names ∧ ∃ k ∈ g, (c.items names)[k]? = some (Comparison.initItem n) := by
  simp only [buildUnit, mem_flatMap]
  constructor
  · rintro ⟨x, hx, hn⟩
    obtain ⟨k, hk, hkx⟩ := mem_sortGroup.mp hx
    rcases mem_items.mp (mem_of_getElem? hkx) with ⟨i, -, rfl⟩ | ⟨j, -, rfl⟩ | ⟨m, hm, rfl⟩
    · cases hn
    · cases hn
    · cases mem_singleton.mp hn
      exact ⟨hm, k, hk, hkx⟩
  · rintro ⟨-, k, hk, hkx⟩
    exact ⟨_, mem_sortGroup.mpr ⟨k, hk, hkx⟩, mem_singleton.mpr rfl⟩

theorem holdsKey_of_added (hinv : ∀ {i j}, c.inverse.find? i = some j → c.matched.find? j = some i)
    (h : j ∈ (buildUnit c index (sortGroup (c.items names) g)).added) :
    HoldsKey (c.items names) g (c.candBlock j) := by
  rcases (mem_added.mp h).2 with ⟨-, k, hk, hkx⟩ | ⟨i, -, hkey, hij⟩
  · exact ⟨k, hk, _, hkx, rfl⟩
  · have hblock : c.candBlock j = .block (c.block i) := by rw [Comparison.candBlock, hinv hij]
    exact hblock ▸ hkey

/-- How the units of a plan split the changes. -/
structure Split (c : Comparison) (names : List String) (units : List ChangeUnit) : Prop where
  removed_once : units.Pairwise fun u v => u.removed.Disjoint v.removed
  added_once : units.Pairwise fun u v => u.added.Disjoint v.added
  removed_nodup : ∀ u ∈ units, u.removed.Nodup
  added_nodup : ∀ u ∈ units, u.added.Nodup
  added_lt : ∀ u ∈ units, ∀ j ∈ u.added, j < c.cn.length
  removes : ∀ i ∈ c.diffBase, ∃ u ∈ units, i ∈ u.removed
  adds : ∀ j ∈ c.diffCand, ∃ u ∈ units, j ∈ u.added
  replaces : ∀ n, n ∈ names ↔ ∃ u ∈ units, n ∈ u.names
  swaps : ∀ u ∈ units, ∀ i ∈ u.removed, ∀ j, c.inverse.find? i = some j → j ∈ u.added
  drops : ∀ u ∈ units, ∀ j ∈ u.added, ∀ i, c.matched.find? j = some i → i ∈ u.removed
  added_cases : ∀ u ∈ units, ∀ j ∈ u.added, j ∈ c.diffCand ∨ ∃ i, c.inverse.find? i = some j
  removed_with_init : ∀ u ∈ units, ∀ n ∈ u.names, n ≠ "" → ∀ i ∈ c.diffBase,
    n ∈ (c.baseItem i).produced → i ∈ u.removed
  init_with_added : ∀ u ∈ units, ∀ j ∈ u.added, j ∈ c.diffCand → ∀ n ∈ names, n ≠ "" →
    n ∈ (c.candItem j).produced → n ∈ u.names

theorem diffBase_lt (hlt : ∀ {i j}, c.matched.find? j = some i → j < c.cn.length ∧ i < c.bn.length)
    (hi : i ∈ c.diffBase) : i < c.bn.length := by
  rcases mem_append.mp hi with hi | hi
  · exact mem_range.mp (mem_filter.mp hi).1
  · obtain ⟨j, -, hj⟩ := mem_filterMap.mp hi
    exact (hlt hj).2

theorem exists_unit (hk : k < (c.items names).length) :
    ∃ index, ∃ g ∈ orderedGroups (c.items names), k ∈ g ∧
      buildUnit c index (sortGroup (c.items names) g) ∈ buildUnits c (c.items names) := by
  obtain ⟨g, hg, hkg⟩ := exists_group hk
  obtain ⟨index, hindex⟩ := mem_iff_getElem?.mp hg
  refine ⟨index, g, hg, hkg, ?_⟩
  exact List.mem_map.mpr ⟨(g, index), mem_zipIdx_iff_getElem?.mpr hindex, rfl⟩

theorem unit_cases {u : ChangeUnit} (h : u ∈ buildUnits c (c.items names)) :
    ∃ index, ∃ g ∈ orderedGroups (c.items names), u = buildUnit c index (sortGroup (c.items names) g) := by
  obtain ⟨⟨g, index⟩, hmem, rfl⟩ := List.mem_map.mp h
  exact ⟨index, g, fst_mem_of_mem_zipIdx hmem, rfl⟩

theorem units_pairwise {R : ChangeUnit → ChangeUnit → Prop}
    (h : ∀ g h index index', (∀ key, HoldsKey (c.items names) g key → ¬ HoldsKey (c.items names) h key) →
      R (buildUnit c index (sortGroup (c.items names) g)) (buildUnit c index' (sortGroup (c.items names) h))) :
    (buildUnits c (c.items names)).Pairwise R := by
  rw [buildUnits, pairwise_map]
  have hgroups := orderedGroups_pairwise (c.items names)
  rw [← zipIdx_map_fst 0 (orderedGroups (c.items names)), pairwise_map] at hgroups
  apply hgroups.imp
  intro e e' hne
  apply h
  rintro key ⟨k, hk, x, hx, hkey⟩ ⟨l, hl, y, hy, hkey'⟩
  exact hne k hk l hl (find_eq_of_key hx hy hkey hkey')

theorem split_buildUnits (hinv : ∀ {i j}, c.inverse.find? i = some j → c.matched.find? j = some i)
    (hlt : ∀ {i j}, c.matched.find? j = some i → j < c.cn.length ∧ i < c.bn.length) :
    Split c names (buildUnits c (c.items names)) where
  removed_once := by
    apply units_pairwise
    intro g h _ _ hkeys i hi hi'
    exact hkeys _ (mem_removed.mp hi).2 (mem_removed.mp hi').2
  added_once := by
    apply units_pairwise
    intro g h _ _ hkeys j hj hj'
    exact hkeys _ (holdsKey_of_added hinv hj) (holdsKey_of_added hinv hj')
  removed_nodup u hu := by
    obtain ⟨index, g, -, rfl⟩ := unit_cases hu
    exact nodup_range.filter _
  added_nodup u hu := by
    obtain ⟨index, g, -, rfl⟩ := unit_cases hu
    exact nodup_range.filter _
  added_lt u hu j hj := by
    obtain ⟨index, g, -, rfl⟩ := unit_cases hu
    exact (mem_added.mp hj).1
  removes i hi := by
    have hmem : c.baseItem i ∈ c.items names := mem_items.mpr (.inl ⟨i, hi, rfl⟩)
    obtain ⟨k, hk⟩ := mem_iff_getElem?.mp hmem
    obtain ⟨index, g, -, hkg, hu⟩ := exists_unit (List.getElem?_eq_some_iff.mp hk).1
    exact ⟨_, hu, mem_removed.mpr ⟨diffBase_lt hlt hi, k, hkg, _, hk, rfl⟩⟩
  adds j hj := by
    have hmem : c.candItem j ∈ c.items names := mem_items.mpr (.inr (.inl ⟨j, hj, rfl⟩))
    obtain ⟨k, hk⟩ := mem_iff_getElem?.mp hmem
    obtain ⟨index, g, -, hkg, hu⟩ := exists_unit (List.getElem?_eq_some_iff.mp hk).1
    have hjlt : j < c.cn.length := mem_range.mp (mem_filter.mp hj).1
    exact ⟨_, hu, mem_added.mpr ⟨hjlt, .inl ⟨hj, k, hkg, hk⟩⟩⟩
  replaces n := by
    constructor
    · intro hn
      have hmem : Comparison.initItem n ∈ c.items names := mem_items.mpr (.inr (.inr ⟨n, hn, rfl⟩))
      obtain ⟨k, hk⟩ := mem_iff_getElem?.mp hmem
      obtain ⟨index, g, -, hkg, hu⟩ := exists_unit (List.getElem?_eq_some_iff.mp hk).1
      exact ⟨_, hu, mem_names.mpr ⟨hn, k, hkg, hk⟩⟩
    · rintro ⟨u, hu, hn⟩
      obtain ⟨index, g, -, rfl⟩ := unit_cases hu
      exact (mem_names.mp hn).1
  swaps u hu i hi j hij := by
    obtain ⟨index, g, -, rfl⟩ := unit_cases hu
    obtain ⟨hilt, hkey⟩ := mem_removed.mp hi
    exact mem_added.mpr ⟨(hlt (hinv hij)).1, .inr ⟨i, hilt, hkey, hij⟩⟩
  drops u hu j hj i hji := by
    obtain ⟨index, g, -, rfl⟩ := unit_cases hu
    have hkey := holdsKey_of_added hinv hj
    have hblock : c.candBlock j = .block (c.block i) := by rw [Comparison.candBlock, hji]
    exact mem_removed.mpr ⟨(hlt hji).2, hblock ▸ hkey⟩
  added_cases u hu j hj := by
    obtain ⟨index, g, -, rfl⟩ := unit_cases hu
    rcases (mem_added.mp hj).2 with ⟨hdiff, -⟩ | ⟨i, -, -, hij⟩
    · exact .inl hdiff
    · exact .inr ⟨i, hij⟩
  removed_with_init u hu n hn hne i hi hprod := by
    obtain ⟨index, g, hg, rfl⟩ := unit_cases hu
    obtain ⟨-, k, hk, hkx⟩ := mem_names.mp hn
    have hmem : c.baseItem i ∈ c.items names := mem_items.mpr (.inl ⟨i, hi, rfl⟩)
    obtain ⟨l, hl⟩ := mem_iff_getElem?.mp hmem
    have hfind : (parent (c.items names)).find l = (parent (c.items names)).find k :=
      find_eq_of_produced hl hkx hne hprod (mem_singleton.mpr rfl)
    have hlg : l ∈ g := mem_of_find_eq hg hk (List.getElem?_eq_some_iff.mp hl).1 hfind
    exact mem_removed.mpr ⟨diffBase_lt hlt hi, l, hlg, _, hl, rfl⟩
  init_with_added u hu j hj hdiff n hn hne hprod := by
    obtain ⟨index, g, hg, rfl⟩ := unit_cases hu
    have hmem : c.candItem j ∈ c.items names := mem_items.mpr (.inr (.inl ⟨j, hdiff, rfl⟩))
    obtain ⟨k, hk⟩ := mem_iff_getElem?.mp hmem
    have hkg : k ∈ g := mem_of_holdsKey hg (holdsKey_of_added hinv hj) hk rfl
    have hmem' : Comparison.initItem n ∈ c.items names := mem_items.mpr (.inr (.inr ⟨n, hn, rfl⟩))
    obtain ⟨l, hl⟩ := mem_iff_getElem?.mp hmem'
    have hfind : (parent (c.items names)).find l = (parent (c.items names)).find k :=
      find_eq_of_produced hl hk hne (mem_singleton.mpr rfl) hprod
    exact mem_names.mpr ⟨hn, l, mem_of_find_eq hg hkg (List.getElem?_eq_some_iff.mp hl).1 hfind, hl⟩

end Onnxsim.Versioning.Units
