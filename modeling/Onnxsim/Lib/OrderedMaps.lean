import Mathlib.Algebra.Order.Ring.Int
import Mathlib.Data.List.Induction
import Mathlib.Data.List.Nodup
import Mathlib.Data.List.Pairwise

namespace Onnxsim.Lib.OrderedMaps

open List Option

variable {K V : Type} [LinearOrder K]

def KeysLt (l : List (K × V)) : Prop := l.Pairwise (fun a b => a.1 < b.1)

/-- A finite map kept as its key-ordered list of pairs, so that walking it
visits the keys in increasing order and equal contents are equal values. -/
structure SortedMap (K V : Type) [LinearOrder K] where
  entries : List (K × V)
  sorted : KeysLt entries

def insertList (k : K) (v : V) : List (K × V) → List (K × V)
  | [] => [(k, v)]
  | (k', v') :: rest =>
    if k < k' then (k, v) :: (k', v') :: rest
    else if k = k' then (k, v) :: rest
    else (k', v') :: insertList k v rest

def lookupList (k : K) : List (K × V) → Option V
  | [] => none
  | (k', v) :: rest => if k = k' then some v else lookupList k rest

variable {l : List (K × V)}

theorem mem_insertList {k : K} {v : V} {p : K × V} (h : p ∈ insertList k v l) : p = (k, v) ∨ p ∈ l := by
  induction l with
  | nil => simpa [insertList] using h
  | cons q l ih =>
    simp only [insertList] at h
    split at h
    · simpa using h
    · split at h
      · rcases mem_cons.mp h with h | h
        · exact .inl h
        · exact .inr (mem_cons_of_mem _ h)
      · rcases mem_cons.mp h with h | h
        · exact .inr (h ▸ mem_cons_self)
        · exact (ih h).imp_right (mem_cons_of_mem _)

theorem insertList_sorted (k : K) (v : V) (h : KeysLt l) : KeysLt (insertList k v l) := by
  induction l with
  | nil => simp [insertList, KeysLt]
  | cons q l ih =>
    obtain ⟨hq, hl⟩ := pairwise_cons.mp h
    simp only [insertList]
    split
    · next hk =>
      refine pairwise_cons.mpr ⟨fun p hp => ?_, h⟩
      rcases mem_cons.mp hp with rfl | hp
      · exact hk
      · exact hk.trans (hq p hp)
    · next hk =>
      split
      · next he =>
        subst he
        exact pairwise_cons.mpr ⟨hq, hl⟩
      · next hne =>
        refine pairwise_cons.mpr ⟨fun p hp => ?_, ih hl⟩
        rcases mem_insertList hp with rfl | hp
        · exact lt_of_le_of_ne (not_lt.mp hk) (Ne.symm hne)
        · exact hq p hp

theorem lookupList_insertList (k j : K) (v : V) (l : List (K × V)) :
    lookupList j (insertList k v l) = if j = k then some v else lookupList j l := by
  induction l with
  | nil => simp [insertList, lookupList]
  | cons q l ih =>
    simp only [insertList]
    split
    · rfl
    · split
      · next he =>
        subst he
        by_cases hj : j = q.1 <;> simp [lookupList, hj]
      · next hne =>
        by_cases hj : j = q.1
        · have hk : ¬ j = k := fun he => hne (he.symm.trans hj)
          simp [lookupList, hj, hj ▸ hk]
        · simp [lookupList, hj, ih]

theorem lookupList_filter (k j : K) (l : List (K × V)) :
    lookupList j (l.filter fun p => p.1 ≠ k) = if j = k then none else lookupList j l := by
  induction l with
  | nil => simp [lookupList]
  | cons q l ih =>
    by_cases hq : q.1 = k
    · rw [filter_cons_of_neg (by simpa using hq), ih, lookupList]
      by_cases hj : j = k
      · rw [if_pos hj, if_pos hj]
      · rw [if_neg hj, if_neg hj, if_neg fun he => hj (he.trans hq)]
    · rw [filter_cons_of_pos (by simpa using hq), lookupList, lookupList, ih]
      by_cases hj : j = q.1
      · rw [if_pos hj, if_pos hj, if_neg fun he => hq (hj.symm.trans he)]
      · rw [if_neg hj, if_neg hj]

theorem lookupList_eq_none {k : K} (h : ∀ p ∈ l, p.1 ≠ k) : lookupList k l = none := by
  induction l with
  | nil => rfl
  | cons q l ih =>
    have hq : ¬ k = q.1 := fun he => h q mem_cons_self he.symm
    simp only [lookupList, hq, if_false]
    exact ih fun p hp => h p (mem_cons_of_mem _ hp)

theorem lookupList_eq_some_iff {k : K} {v : V} (h : KeysLt l) : lookupList k l = some v ↔ (k, v) ∈ l := by
  induction l with
  | nil => simp [lookupList]
  | cons q l ih =>
    obtain ⟨hq, hl⟩ := pairwise_cons.mp h
    obtain ⟨k', v'⟩ := q
    by_cases hk : k = k'
    · subst hk
      have hn : (k, v) ∉ l := fun hm => lt_irrefl k (hq (k, v) hm)
      simp [lookupList, hn, eq_comm]
    · simp [lookupList, hk, ih hl]

theorem insertList_append (k : K) (v : V) (h : ∀ p ∈ l, p.1 < k) : insertList k v l = l ++ [(k, v)] := by
  induction l with
  | nil => rfl
  | cons q l ih =>
    have hq := h q mem_cons_self
    simp only [insertList, not_lt.mpr hq.le, hq.ne', if_false, cons_append]
    rw [ih fun p hp => h p (mem_cons_of_mem _ hp)]

theorem foldl_insertList (l : List (K × V)) :
    ∀ acc : List (K × V), KeysLt (acc ++ l) →
      l.foldl (fun m p => insertList p.1 p.2 m) acc = acc ++ l := by
  induction l with
  | nil => simp
  | cons q l ih =>
    intro acc h
    have hacc : ∀ p ∈ acc, p.1 < q.1 := fun p hp =>
      (pairwise_append.mp h).2.2 p hp q mem_cons_self
    rw [foldl_cons, insertList_append q.1 q.2 hacc, ih _ (by simpa using h)]
    simp

theorem length_insertList_le (k : K) (v : V) (l : List (K × V)) :
    (insertList k v l).length ≤ l.length + 1 := by
  induction l with
  | nil => exact Nat.le_refl _
  | cons q l ih =>
    simp only [insertList]
    split
    · exact Nat.le_refl _
    · split
      · exact Nat.le_succ _
      · simp only [length_cons]
        omega

theorem sum_insertList (f : V → Int) (k : K) (v : V) (h : KeysLt l) :
    ((insertList k v l).map fun p => f p.2).sum + ((lookupList k l).map f).getD 0 =
      (l.map fun p => f p.2).sum + f v := by
  induction l with
  | nil => simp [insertList, lookupList]
  | cons q l ih =>
    obtain ⟨hq, hl⟩ := pairwise_cons.mp h
    simp only [insertList]
    split
    · next hk =>
      have hnone : lookupList k (q :: l) = none := by
        apply lookupList_eq_none
        intro p hp he
        rcases mem_cons.mp hp with rfl | hp
        · exact hk.ne he.symm
        · exact (hk.trans (hq p hp)).ne he.symm
      rw [hnone, map_cons, sum_cons, map_none, getD_none, Int.add_zero,
        Int.add_comm]
    · split
      · next he =>
        simp only [lookupList, he, if_true, map_cons, sum_cons, map_some,
          getD_some]
        omega
      · next hne =>
        have htail := ih hl
        simp only [lookupList, hne, if_false, map_cons, sum_cons]
        omega

theorem keysLt_ext {l₁ l₂ : List (K × V)} (h₁ : KeysLt l₁) (h₂ : KeysLt l₂)
    (h : ∀ p, p ∈ l₁ ↔ p ∈ l₂) : l₁ = l₂ := by
  have hn : ∀ {l : List (K × V)}, KeysLt l → l.Nodup := by
    intro l hl
    exact List.Pairwise.imp (fun {a b} hab he => (he ▸ hab).ne rfl) hl
  have hp : l₁.Perm l₂ := (perm_ext_iff_of_nodup (hn h₁) (hn h₂)).mpr h
  exact hp.eq_of_pairwise (fun a b _ _ hab hba => absurd hab (not_lt.mpr hba.le)) h₁ h₂

namespace SortedMap

def empty : SortedMap K V := ⟨[], List.Pairwise.nil⟩

def insert (m : SortedMap K V) (k : K) (v : V) : SortedMap K V :=
  ⟨insertList k v m.entries, insertList_sorted k v m.sorted⟩

def find? (m : SortedMap K V) (k : K) : Option V := lookupList k m.entries

/-- The assignments one after the other, so that the last one for a key stays. -/
def ofList (l : List (K × V)) : SortedMap K V := l.foldl (fun m p => m.insert p.1 p.2) empty

def erase (m : SortedMap K V) (k : K) : SortedMap K V :=
  ⟨m.entries.filter (fun p => p.1 ≠ k), m.sorted.filter _⟩

def keys (m : SortedMap K V) : List K := m.entries.map Prod.fst

instance [DecidableEq V] : DecidableEq (SortedMap K V) := fun a b =>
  decidable_of_iff (a.entries = b.entries) ⟨fun h => by cases a; cases b; cases h; rfl, fun h => h ▸ rfl⟩

variable {a b : SortedMap K V} {k : K} {v : V} {W : Type}

theorem ext_entries (h : a.entries = b.entries) : a = b := by
  cases a
  cases b
  cases h
  rfl

@[simp] theorem find?_empty (k : K) : (empty : SortedMap K V).find? k = none := rfl

@[simp] theorem find?_insert (m : SortedMap K V) (k j : K) (v : V) :
    (m.insert k v).find? j = if j = k then some v else m.find? j :=
  lookupList_insertList k j v m.entries

@[simp] theorem find?_erase (m : SortedMap K V) (k j : K) :
    (m.erase k).find? j = if j = k then none else m.find? j := lookupList_filter k j m.entries

theorem length_insert_le (m : SortedMap K V) (k : K) (v : V) :
    (m.insert k v).entries.length ≤ m.entries.length + 1 := length_insertList_le k v m.entries

theorem find?_eq_some_iff (m : SortedMap K V) (k : K) (v : V) :
    m.find? k = some v ↔ (k, v) ∈ m.entries := lookupList_eq_some_iff m.sorted

theorem mem_keys_iff (m : SortedMap K V) (k : K) : k ∈ m.keys ↔ ∃ v, m.find? k = some v := by
  simp [keys, find?_eq_some_iff]

theorem find?_eq_none_iff (m : SortedMap K V) (k : K) : m.find? k = none ↔ k ∉ m.keys := by
  rw [mem_keys_iff, not_exists, eq_none_iff_forall_ne_some]

theorem ofList_append_singleton (l : List (K × V)) (p : K × V) :
    ofList (l ++ [p]) = (ofList l).insert p.1 p.2 := by
  rw [ofList, foldl_append]
  rfl

theorem mem_of_find?_ofList {l : List (K × V)} (h : (ofList l).find? k = some v) : (k, v) ∈ l := by
  induction l using List.reverseRecOn with
  | nil => simp [ofList] at h
  | append_singleton l p ih =>
    rw [ofList_append_singleton, find?_insert] at h
    split at h
    · next hk =>
      cases h
      exact mem_append_right _ (hk ▸ mem_cons_self)
    · exact mem_append_left _ (ih h)

theorem find?_ofList_of_mem {l : List (K × V)} (h : (k, v) ∈ l) :
    ∃ w l₁ l₂, l = l₁ ++ (k, w) :: l₂ ∧ (ofList l).find? k = some w ∧ ∀ p ∈ l₂, p.1 ≠ k := by
  induction l using List.reverseRecOn with
  | nil => cases h
  | append_singleton l p ih =>
    simp only [ofList_append_singleton, find?_insert]
    by_cases hk : k = p.1
    · exact ⟨p.2, l, [], by rw [hk], by rw [if_pos hk], by simp⟩
    · have hl : (k, v) ∈ l := by
        apply (mem_append.mp h).resolve_right
        intro hm
        exact hk (congrArg Prod.fst (mem_singleton.mp hm))
      obtain ⟨w, l₁, l₂, hsplit, hw, hlast⟩ := ih hl
      refine ⟨w, l₁, l₂ ++ [p], by simp [hsplit], by rw [if_neg hk, hw], fun q hq => ?_⟩
      rcases mem_append.mp hq with hq | hq
      · exact hlast q hq
      · rw [mem_singleton.mp hq]
        exact fun he => hk he.symm

theorem find?_ofList_append (l₁ : List (K × V)) (p : K × V) {l₂ : List (K × V)}
    (h : ∀ q ∈ l₂, q.1 ≠ p.1) : (ofList (l₁ ++ p :: l₂)).find? p.1 = some p.2 := by
  induction l₂ using List.reverseRecOn with
  | nil => rw [ofList_append_singleton, find?_insert, if_pos rfl]
  | append_singleton l₂ q ih =>
    rw [← cons_append, ← append_assoc, ofList_append_singleton, find?_insert,
      if_neg (h q (mem_append_right _ mem_cons_self)).symm]
    exact ih fun r hr => h r (mem_append_left _ hr)

/-- Where the values never go down along the list, the one that stays is the largest for its key. -/
theorem le_find?_ofList [Preorder V] {l : List (K × V)} (hle : l.Pairwise fun a b => a.2 ≤ b.2) (h : (k, v) ∈ l) :
    ∃ w, (ofList l).find? k = some w ∧ v ≤ w := by
  obtain ⟨w, l₁, l₂, rfl, hw, hlast⟩ := find?_ofList_of_mem h
  refine ⟨w, hw, ?_⟩
  rcases mem_append.mp h with h | h
  · exact (pairwise_append.mp hle).2.2 _ h _ mem_cons_self
  · rcases mem_cons.mp h with h | h
    · cases h
      exact le_refl _
    · exact absurd rfl (hlast _ h)

theorem find?_ofList_iff {l : List (K × V)} (hnd : (l.map Prod.fst).Nodup) :
    (ofList l).find? k = some v ↔ (k, v) ∈ l := by
  refine ⟨mem_of_find?_ofList, fun h => ?_⟩
  obtain ⟨w, l₁, l₂, hl, hw, -⟩ := find?_ofList_of_mem h
  have hmem : (k, w) ∈ l := by
    rw [hl]
    simp
  have hsame : (k, w) = (k, v) := inj_on_of_nodup_map hnd hmem h rfl
  cases hsame
  exact hw

theorem find?_ofList_eq_none_iff {l : List (K × V)} : (ofList l).find? k = none ↔ k ∉ l.map Prod.fst := by
  rw [eq_none_iff_forall_ne_some]
  constructor
  · intro h hmem
    obtain ⟨⟨k', v⟩, hp, rfl⟩ := List.mem_map.mp hmem
    obtain ⟨w, -, -, -, hw, -⟩ := find?_ofList_of_mem hp
    exact h w hw
  · intro h v hv
    exact h (List.mem_map_of_mem (mem_of_find?_ofList hv))

theorem keys_pairwise (m : SortedMap K V) : m.keys.Pairwise (· < ·) :=
  pairwise_map.mpr m.sorted

theorem keys_nodup (m : SortedMap K V) : m.keys.Nodup :=
  m.keys_pairwise.imp fun h => h.ne

theorem ext_find? (h : ∀ k, a.find? k = b.find? k) : a = b := by
  refine ext_entries (keysLt_ext a.sorted b.sorted fun p => ?_)
  rw [← find?_eq_some_iff, ← find?_eq_some_iff, h]

theorem foldl_insert_entries (m : SortedMap K V) :
    m.entries.foldl (fun acc p => acc.insert p.1 p.2) empty = m := by
  have hfold : ∀ (l : List (K × V)) (acc : SortedMap K V),
      (l.foldl (fun acc p => acc.insert p.1 p.2) acc).entries =
        l.foldl (fun acc p => insertList p.1 p.2 acc) acc.entries := by
    intro l
    induction l with
    | nil => simp
    | cons p l ih =>
      intro acc
      rw [foldl_cons, ih, foldl_cons]
      rfl
  apply ext_entries
  rw [hfold, foldl_insertList]
  · rfl
  · exact m.sorted

theorem map_insertList (f : V → W) (k : K) (v : V) (l : List (K × V)) :
    (insertList k v l).map (fun p => (p.1, f p.2)) = insertList k (f v) (l.map fun p => (p.1, f p.2)) := by
  induction l with
  | nil => rfl
  | cons p l ih =>
    rw [insertList, map_cons, insertList]
    split
    · rfl
    split
    · rfl
    · rw [map_cons, ih]

theorem keysLt_map (f : V → W) {l : List (K × V)} (h : KeysLt l) : KeysLt (l.map fun p => (p.1, f p.2)) := by
  rw [KeysLt, pairwise_map]
  exact h

def mapVals {W : Type} (f : V → W) (m : SortedMap K V) : SortedMap K W :=
  ⟨m.entries.map fun p => (p.1, f p.2), keysLt_map f m.sorted⟩

theorem mapVals_insert (f : V → W) (m : SortedMap K V) (k : K) (v : V) :
    (m.insert k v).mapVals f = (m.mapVals f).insert k (f v) := by
  apply ext_entries
  exact map_insertList f k v m.entries

theorem foldl_insert_mapVals (f : V → W) (m : SortedMap K V) :
    m.entries.foldl (fun acc p => acc.insert p.1 (f p.2)) empty = m.mapVals f := by
  have h := (m.mapVals f).foldl_insert_entries
  rwa [mapVals, foldl_map] at h

theorem find?_mapVals (f : V → W) (m : SortedMap K V) (h : (k, v) ∈ m.entries) : (m.mapVals f).find? k = some (f v) :=
  (find?_eq_some_iff _ k (f v)).mpr (List.mem_map.mpr ⟨(k, v), h, rfl⟩)

end SortedMap

end Onnxsim.Lib.OrderedMaps
