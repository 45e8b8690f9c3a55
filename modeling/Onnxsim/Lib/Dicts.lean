import Mathlib.Algebra.BigOperators.Group.Finset.Piecewise

namespace Onnxsim.Lib.Dicts

open List Option

variable {K V W M : Type} [DecidableEq K]

/-- A dictionary that keeps its keys in the order of their first insertion. -/
@[ext] structure Dict (K V : Type) where
  entries : List (K × V)
  nodup : (entries.map Prod.fst).Nodup

def getList (k : K) : List (K × V) → Option V
  | [] => none
  | p :: l => if p.1 = k then some p.2 else getList k l

def setList (k : K) (v : V) : List (K × V) → List (K × V)
  | [] => [(k, v)]
  | p :: l => if p.1 = k then (k, v) :: l else p :: setList k v l

theorem mem_keys_setList {k j : K} {v : V} {l : List (K × V)} :
    j ∈ (setList k v l).map Prod.fst ↔ j = k ∨ j ∈ l.map Prod.fst := by
  induction l with
  | nil => simp [setList]
  | cons p l ih =>
    rw [setList]
    split
    · next hp => simp [hp]
    · rw [map_cons, map_cons, mem_cons, mem_cons, ih]
      exact or_left_comm

theorem nodup_setList (k : K) (v : V) {l : List (K × V)} (h : (l.map Prod.fst).Nodup) :
    ((setList k v l).map Prod.fst).Nodup := by
  induction l with
  | nil => simp [setList]
  | cons p l ih =>
    rw [map_cons, nodup_cons] at h
    rw [setList]
    split
    · next hp =>
      rw [map_cons, nodup_cons]
      exact ⟨hp ▸ h.1, h.2⟩
    · next hp =>
      rw [map_cons, nodup_cons]
      refine ⟨fun hmem => ?_, ih h.2⟩
      rcases mem_keys_setList.mp hmem with hk | hk
      · exact hp hk
      · exact h.1 hk

theorem getList_setList (k j : K) (v : V) (l : List (K × V)) :
    getList j (setList k v l) = if j = k then some v else getList j l := by
  induction l with
  | nil =>
    simp only [setList, getList]
    exact if_congr eq_comm rfl rfl
  | cons p l ih =>
    rw [setList]
    split
    · next hp =>
      simp only [getList, hp]
      by_cases hj : j = k
      · simp [hj]
      · simp [hj, Ne.symm hj]
    · next hp =>
      simp only [getList, ih]
      by_cases hj : j = k
      · simp [hj, hp]
      · simp [hj]

theorem getList_eq_some_iff {k : K} {v : V} {l : List (K × V)} (h : (l.map Prod.fst).Nodup) :
    getList k l = some v ↔ (k, v) ∈ l := by
  induction l with
  | nil => simp [getList]
  | cons p l ih =>
    obtain ⟨a, b⟩ := p
    rw [map_cons, nodup_cons] at h
    rw [getList, mem_cons]
    split
    · next hp =>
      subst hp
      have hnot : (a, v) ∉ l := fun hm => h.1 (List.mem_map.mpr ⟨_, hm, rfl⟩)
      simp [hnot, eq_comm]
    · next hp =>
      have hne : ¬ (k, v) = (a, b) := fun he => hp (congrArg Prod.fst he).symm
      rw [ih h.2]
      simp only [hne, false_or]

theorem sum_setList [AddCommMonoid M] (f : K → V → M) (k : K) (v : V) (l : List (K × V)) :
    ((setList k v l).map fun p => f p.1 p.2).sum + (getList k l).elim 0 (f k) =
      (l.map fun p => f p.1 p.2).sum + f k v := by
  induction l with
  | nil => simp [setList, getList]
  | cons p l ih =>
    obtain ⟨a, b⟩ := p
    rw [setList, getList]
    split
    · next hp =>
      subst hp
      simp only [map_cons, sum_cons, elim_some]
      rw [add_comm (f a v), add_right_comm, add_comm _ (f a b)]
    · simp only [map_cons, sum_cons]
      rw [add_assoc, ih, add_assoc]

namespace Dict

def empty : Dict K V := ⟨[], nodup_nil⟩

def get? (d : Dict K V) (k : K) : Option V := getList k d.entries

/-- Keeps the place of a key that is there, and appends one that is not. -/
def set (d : Dict K V) (k : K) (v : V) : Dict K V := ⟨setList k v d.entries, nodup_setList k v d.nodup⟩

omit [DecidableEq K] in
def mapVals (f : V → W) (d : Dict K V) : Dict K W :=
  ⟨d.entries.map fun p => (p.1, f p.2), by
    rw [List.map_map]
    exact d.nodup⟩

omit [DecidableEq K] in
def filterVals (p : V → Bool) (d : Dict K V) : Dict K V :=
  ⟨d.entries.filter fun e => p e.2, d.nodup.sublist (filter_sublist.map Prod.fst)⟩

/-- The sum of `f` over the entries. -/
def total [AddCommMonoid M] (f : K → V → M) (d : Dict K V) : M :=
  (d.entries.map fun p => f p.1 p.2).sum

omit [DecidableEq K] in
@[simp] theorem entries_empty : (empty : Dict K V).entries = [] := rfl

@[simp] theorem get?_empty (k : K) : (empty : Dict K V).get? k = none := rfl

@[simp] theorem get?_set (d : Dict K V) (k j : K) (v : V) :
    (d.set k v).get? j = if j = k then some v else d.get? j := getList_setList k j v d.entries

variable {k : K} {d : Dict K V} {l : List (K × V)}

theorem get?_eq_some_iff {v : V} : d.get? k = some v ↔ (k, v) ∈ d.entries :=
  getList_eq_some_iff d.nodup

section

variable [AddCommMonoid M]

omit [DecidableEq K] in
theorem total_mapVals (f : K → W → M) (g : V → W) (d : Dict K V) :
    total f (d.mapVals g) = total (fun k v => f k (g v)) d := by
  rw [total, mapVals, List.map_map]
  rfl

omit [DecidableEq K] in
theorem total_filterVals (f : K → V → M) (p : V → Bool) (h : ∀ k v, p v = false → f k v = 0)
    (d : Dict K V) : total f (d.filterVals p) = total f d := by
  change ((d.entries.filter fun e => p e.2).map fun e => f e.1 e.2).sum = _
  rw [total]
  induction d.entries with
  | nil => rfl
  | cons e l ih =>
    cases hp : p e.2 with
    | true => simp only [filter_cons, hp, if_true, map_cons, sum_cons, ih]
    | false =>
      have hzero : f e.1 e.2 = 0 := h _ _ hp
      simp [hp, ih, hzero]

end

def setAll (d : Dict K V) (l : List (K × V)) : Dict K V := l.foldl (fun d p => d.set p.1 p.2) d

theorem setList_of_notMem (v : V) (h : k ∉ l.map Prod.fst) : setList k v l = l ++ [(k, v)] := by
  induction l with
  | nil => rfl
  | cons p l ih =>
    rw [map_cons, mem_cons, not_or] at h
    rw [setList, if_neg (Ne.symm h.1), ih h.2, cons_append]

theorem entries_setAll (h : ((d.entries ++ l).map Prod.fst).Nodup) : (d.setAll l).entries = d.entries ++ l := by
  induction l generalizing d with
  | nil => simp [setAll]
  | cons p l ih =>
    have hp : p.1 ∉ d.entries.map Prod.fst := by
      rw [map_append, nodup_append'] at h
      exact fun hm => h.2.2 hm (by simp)
    have hset : (d.set p.1 p.2).entries = d.entries ++ [p] := setList_of_notMem p.2 hp
    have hstep : (((d.set p.1 p.2).entries ++ l).map Prod.fst).Nodup := by
      rw [hset, append_assoc]
      exact h
    have hrest := ih hstep
    rw [hset, append_assoc] at hrest
    exact hrest

def erase (d : Dict K V) (k : K) : Dict K V :=
  ⟨d.entries.filter fun e => e.1 ≠ k, d.nodup.sublist (filter_sublist.map Prod.fst)⟩

theorem mem_entries_erase {e : K × V} : e ∈ (d.erase k).entries ↔ e ∈ d.entries ∧ e.1 ≠ k := by
  rw [erase, mem_filter, decide_eq_true_eq]

@[simp] theorem get?_erase (d : Dict K V) (k j : K) :
    (d.erase k).get? j = if j = k then none else d.get? j := by
  apply Option.ext
  intro v
  rw [get?_eq_some_iff, mem_entries_erase]
  by_cases hj : j = k
  · simp [hj]
  · simp [hj, get?_eq_some_iff]

def keys (d : Dict K V) : List K := d.entries.map Prod.fst

theorem mem_keys_iff : k ∈ d.keys ↔ ∃ v, d.get? k = some v := by
  simp [keys, get?_eq_some_iff]

/-- The values listed under each key, in the order in which they come. -/
def collect (l : List (K × V)) : Dict K (List V) :=
  l.foldl (fun d p => d.set p.1 ((d.get? p.1).getD [] ++ [p.2])) empty

theorem get?_foldl_collect (l : List (K × V)) (d : Dict K (List V)) (k : K) :
    ((l.foldl (fun d p => d.set p.1 ((d.get? p.1).getD [] ++ [p.2])) d).get? k).getD [] =
      (d.get? k).getD [] ++ (l.filter fun p => p.1 = k).map Prod.snd := by
  induction l generalizing d with
  | nil => simp
  | cons p l ih =>
    rw [foldl_cons, ih, get?_set]
    by_cases hk : k = p.1
    · subst hk
      simp
    · simp [hk, Ne.symm hk]

theorem getD_collect (l : List (K × V)) (k : K) :
    ((collect l).get? k).getD [] = (l.filter fun p => p.1 = k).map Prod.snd := by
  rw [collect, get?_foldl_collect]
  simp

theorem mem_keys_foldl_collect {d : Dict K (List V)} :
    k ∈ (l.foldl (fun d p => d.set p.1 ((d.get? p.1).getD [] ++ [p.2])) d).keys ↔
      k ∈ d.keys ∨ k ∈ l.map Prod.fst := by
  induction l generalizing d with
  | nil => simp
  | cons p l ih =>
    rw [foldl_cons, ih, map_cons, mem_cons, keys, set, mem_keys_setList, keys]
    exact or_assoc.trans or_left_comm

theorem mem_keys_collect : k ∈ (collect l).keys ↔ k ∈ l.map Prod.fst := by
  rw [collect, mem_keys_foldl_collect]
  simp [keys]

theorem mem_collect_iff {vs : List V} :
    (k, vs) ∈ (collect l).entries ↔
      k ∈ l.map Prod.fst ∧ vs = (l.filter fun p => p.1 = k).map Prod.snd := by
  rw [← mem_keys_collect, ← get?_eq_some_iff, ← getD_collect, mem_keys_iff]
  constructor
  · intro h
    exact ⟨⟨vs, h⟩, by rw [h]; rfl⟩
  · rintro ⟨⟨ws, hws⟩, rfl⟩
    rw [hws]
    rfl

section

variable [AddCommMonoid V] [AddCommGroup M]

/-- Add to the value of a key, which counts as zero where it is missing. -/
def addTo (d : Dict K V) (k : K) (x : V) : Dict K V := d.set k ((d.get? k).getD 0 + x)

theorem total_addTo (f : K → V →+ M) (d : Dict K V) (k : K) (x : V) :
    total (fun k v => f k v) (d.addTo k x) = total (fun k v => f k v) d + f k x := by
  have hset := sum_setList (fun k v => f k v) k ((d.get? k).getD 0 + x) d.entries
  have hold : (getList k d.entries).elim 0 (fun v => f k v) = f k ((d.get? k).getD 0) := by
    rw [get?]
    cases getList k d.entries with
    | none => exact (map_zero (f k)).symm
    | some v => rfl
  rw [hold, map_add, add_comm (f k _) (f k x), ← add_assoc] at hset
  exact add_right_cancel hset

/-- Add every entry of `e`, each value through `g`. -/
def addAll (g : V →+ V) (d e : Dict K V) : Dict K V := e.entries.foldl (fun d p => d.addTo p.1 (g p.2)) d

theorem total_addAll (f : K → V →+ M) (g : V →+ V) (d e : Dict K V) :
    total (fun k v => f k v) (d.addAll g e) =
      total (fun k v => f k v) d + total (fun k v => f k (g v)) e := by
  change total _ (e.entries.foldl _ d) = _ + (e.entries.map fun p => f p.1 (g p.2)).sum
  induction e.entries generalizing d with
  | nil => simp
  | cons p l ih => rw [foldl_cons, ih, total_addTo, map_cons, sum_cons, add_assoc]

end

/-- Write the entries into a list of the length `n` filled with `init`; a key past the end is an
error. -/
def scatterList (n : Nat) : List (Nat × V) → List V → Except Nat (List V)
  | [], out => .ok out
  | p :: l, out => if p.1 < n then scatterList n l (out.set p.1 p.2) else .error p.1

def scatter (n : Nat) (init : V) (d : Dict Nat V) : Except Nat (List V) :=
  scatterList n d.entries (List.replicate n init)

variable {n : Nat} {out : List V} {init : V}

theorem scatterList_spec {l : List (Nat × V)} (hnd : (l.map Prod.fst).Nodup) {out' : List V} (hn : out.length = n)
    (h : scatterList n l out = .ok out') :
    out'.length = n ∧ (∀ i < n, out'[i]? = (getList i l).or out[i]?) ∧ ∀ p ∈ l, p.1 < n := by
  induction l generalizing out with
  | nil =>
    cases h
    exact ⟨hn, fun i _ => rfl, by simp⟩
  | cons p l ih =>
    rw [map_cons, nodup_cons] at hnd
    rw [scatterList] at h
    split at h
    · next hp =>
      have hset : (out.set p.1 p.2).length = n := by rw [length_set, hn]
      obtain ⟨hlen, hget, hall⟩ := ih hnd.2 hset h
      refine ⟨hlen, fun i hi => ?_, forall_mem_cons.mpr ⟨hp, hall⟩⟩
      rw [hget i hi, getList]
      by_cases hpi : p.1 = i
      · subst hpi
        have hnone : getList p.1 l = none := by
          rw [eq_none_iff_forall_ne_some]
          intro v hv
          exact hnd.1 (List.mem_map.mpr ⟨_, (getList_eq_some_iff hnd.2).mp hv, rfl⟩)
        simp [hnone, hn, hi]
      · rw [if_neg hpi, getElem?_set_ne hpi]
    · cases h

theorem scatter_eq {d : Dict Nat V} (h : d.scatter n init = .ok out) :
    out = (List.range n).map fun i => (d.get? i).getD init := by
  obtain ⟨hlen, hget, -⟩ := scatterList_spec d.nodup length_replicate h
  apply ext_getElem?
  intro i
  rw [getElem?_map]
  by_cases hi : i < n
  · rw [hget i hi, getElem?_replicate_of_lt hi, getElem?_range hi, map_some, get?]
    cases getList i d.entries <;> rfl
  · rw [getElem?_eq_none (by omega), getElem?_eq_none (by simpa using hi)]
    rfl

theorem scatter_keys {d : Dict Nat V} (h : d.scatter n init = .ok out) : ∀ p ∈ d.entries, p.1 < n :=
  (scatterList_spec d.nodup length_replicate h).2.2

theorem sum_getList [AddCommMonoid M] (f : Nat → V → M) {l : List (Nat × V)} (hnd : (l.map Prod.fst).Nodup)
    (h : ∀ p ∈ l, p.1 < n) :
    ∑ i ∈ Finset.range n, (getList i l).elim 0 (f i) = (l.map fun p => f p.1 p.2).sum := by
  induction l with
  | nil => simp [getList]
  | cons p l ih =>
    rw [map_cons, nodup_cons] at hnd
    obtain ⟨hp, hl⟩ := forall_mem_cons.mp h
    have hnone : getList p.1 l = none := by
      rw [eq_none_iff_forall_ne_some]
      intro v hv
      exact hnd.1 (List.mem_map.mpr ⟨_, (getList_eq_some_iff hnd.2).mp hv, rfl⟩)
    have hsplit (i : Nat) : (getList i (p :: l)).elim 0 (f i) =
        (if p.1 = i then f p.1 p.2 else 0) + (getList i l).elim 0 (f i) := by
      rw [getList]
      by_cases hi : p.1 = i
      · subst hi
        simp [hnone]
      · simp [hi]
    simp only [hsplit, Finset.sum_add_distrib, ih hnd.2 hl]
    rw [Finset.sum_ite_eq, if_pos (Finset.mem_range.mpr hp), map_cons, sum_cons]

theorem sum_get? [AddCommMonoid M] (f : Nat → V → M) {d : Dict Nat V} (h : ∀ p ∈ d.entries, p.1 < n) :
    ∑ i ∈ Finset.range n, (d.get? i).elim 0 (f i) = d.total f := sum_getList f d.nodup h

end Dict

end Onnxsim.Lib.Dicts
