import Mathlib.Algebra.BigOperators.Group.List.Basic
import Onnxsim.Lib.OrderedMaps

namespace Onnxsim.Lib.SparseSums

open List OrderedMaps

section

variable {K V M : Type} [LinearOrder K] [AddCommMonoid M]

/-- The sum of `f` over the entries of a map. -/
def total (f : K → V → M) (m : SortedMap K V) : M := (m.entries.map fun p => f p.1 p.2).sum

@[simp] theorem total_empty (f : K → V → M) : total f .empty = 0 := rfl

def part (f : K → V → M) (m : SortedMap K V) (k : K) : M := (m.find? k).elim 0 (f k)

theorem sum_erase_list (f : K → V → M) (k : K) {l : List (K × V)} (h : KeysLt l) :
    (l.map fun p => f p.1 p.2).sum =
      (lookupList k l).elim 0 (f k) + ((l.filter fun p => p.1 ≠ k).map fun p => f p.1 p.2).sum := by
  induction l with
  | nil => simp [lookupList]
  | cons q l ih =>
    obtain ⟨hq, hl⟩ := pairwise_cons.mp h
    by_cases hk : k = q.1
    · have hrest : l.filter (fun p => p.1 ≠ k) = l := by
        apply filter_eq_self.mpr
        intro p hp
        simpa using (hk ▸ hq p hp).ne'
      subst hk
      rw [filter_cons_of_neg (by simp), hrest]
      simp [lookupList]
    · rw [filter_cons_of_pos (by simpa using Ne.symm hk), map_cons, map_cons,
        sum_cons, sum_cons, ih hl, lookupList, if_neg hk]
      exact add_left_comm _ _ _

theorem total_erase (f : K → V → M) (m : SortedMap K V) (k : K) :
    total f m = part f m k + total f (m.erase k) := sum_erase_list f k m.sorted

theorem erase_insert (m : SortedMap K V) (k : K) (v : V) : (m.insert k v).erase k = m.erase k := by
  apply SortedMap.ext_find?
  intro j
  by_cases hj : j = k
  · subst hj
    rw [SortedMap.find?_erase, SortedMap.find?_erase, if_pos rfl, if_pos rfl]
  · rw [SortedMap.find?_erase, SortedMap.find?_erase, if_neg hj, if_neg hj, SortedMap.find?_insert,
      if_neg hj]

theorem total_insert (f : K → V → M) (m : SortedMap K V) (k : K) (v : V) :
    total f (m.insert k v) = f k v + total f (m.erase k) := by
  rw [total_erase f (m.insert k v) k, erase_insert, part, SortedMap.find?_insert, if_pos rfl]
  rfl

end

variable {K R M : Type} [LinearOrder K] [AddCommMonoid R] [DecidableEq R] [AddCommMonoid M]

/-- The coefficient of a key, zero where the map says nothing. -/
def coeff (m : SortedMap K R) (k : K) : R := (m.find? k).getD 0

/-- Add to the coefficient of one key, and forget the key when that leaves zero. -/
def accumulate (m : SortedMap K R) (k : K) (c : R) : SortedMap K R :=
  if coeff m k + c = 0 then m.erase k else m.insert k (coeff m k + c)

theorem total_accumulate (f : K → R → M) (hzero : ∀ k, f k 0 = 0)
    (hadd : ∀ k a b, f k (a + b) = f k a + f k b) (m : SortedMap K R) (k : K) (c : R) :
    total f (accumulate m k c) = total f m + f k c := by
  have hpart : part f m k = f k (coeff m k) := by
    rw [part, coeff]
    cases m.find? k with
    | none => exact (hzero k).symm
    | some v => rfl
  have hsum : f k (coeff m k) + f k c + total f (m.erase k) = total f m + f k c := by
    rw [total_erase f m k, hpart]
    exact add_right_comm _ _ _
  rw [accumulate]
  split
  · next h =>
    have hcancel : f k (coeff m k) + f k c = 0 := by rw [← hadd, h, hzero]
    rw [← hsum, hcancel, zero_add]
  · rw [total_insert, hadd, hsum]

theorem total_foldl (f : K → R → M) (hzero : ∀ k, f k 0 = 0)
    (hadd : ∀ k a b, f k (a + b) = f k a + f k b) {ι : Type} (key : ι → K) (val : ι → R)
    (l : List ι) (m : SortedMap K R) :
    total f (l.foldl (fun m p => accumulate m (key p) (val p)) m) =
      total f m + (l.map fun p => f (key p) (val p)).sum := by
  induction l generalizing m with
  | nil => simp
  | cons p l ih =>
    rw [foldl_cons, ih, total_accumulate f hzero hadd, map_cons, sum_cons, add_assoc]

def NoZero (m : SortedMap K R) : Prop := ∀ p ∈ m.entries, p.2 ≠ 0

variable {m : SortedMap K R} {k : K} {p : K × R} {c : R}

omit [AddCommMonoid R] [DecidableEq R] in
theorem mem_erase (h : p ∈ (m.erase k).entries) : p ∈ m.entries := mem_of_mem_filter h

theorem mem_accumulate (h : p ∈ (accumulate m k c).entries) : p ∈ m.entries ∨ p.1 = k ∧ p.2 ≠ 0 := by
  rw [accumulate] at h
  split at h
  · exact .inl (mem_erase h)
  · next hne =>
    rcases mem_insertList h with rfl | h
    · exact .inr ⟨rfl, hne⟩
    · exact .inl h

theorem NoZero.accumulate (h : NoZero m) (k : K) (c : R) : NoZero (accumulate m k c) := by
  intro p hp
  rcases mem_accumulate hp with hp | ⟨-, hp⟩
  · exact h p hp
  · exact hp

omit [DecidableEq R] in
theorem mem_entries_iff (h : NoZero m) : (k, c) ∈ m.entries ↔ coeff m k = c ∧ c ≠ 0 := by
  rw [← SortedMap.find?_eq_some_iff, coeff]
  cases hf : m.find? k with
  | none => simp only [Option.getD_none, reduceCtorEq, false_iff, not_and]; exact fun h => absurd h.symm
  | some v =>
    have hv : v ≠ 0 := h _ ((SortedMap.find?_eq_some_iff m k v).mp hf)
    simp only [Option.some.injEq, Option.getD_some]
    exact ⟨fun he => ⟨he, he ▸ hv⟩, fun he => he.1⟩

omit [DecidableEq R] in
theorem ext_coeff {a b : SortedMap K R} (ha : NoZero a) (hb : NoZero b)
    (h : ∀ k, coeff a k = coeff b k) : a = b := by
  apply SortedMap.ext_entries
  apply keysLt_ext a.sorted b.sorted
  intro p
  rw [mem_entries_iff ha, mem_entries_iff hb, h]

omit [DecidableEq R] in
theorem total_pick (m : SortedMap K R) (k : K) :
    total (fun j c => if j = k then c else 0) m = coeff m k := by
  have hrest : total (fun j c => if j = k then c else 0) (m.erase k) = (0 : R) := by
    apply sum_eq_zero
    intro x hx
    obtain ⟨p, hp, rfl⟩ := List.mem_map.mp hx
    have hk : p.1 ≠ k := by simpa using (mem_filter.mp hp).2
    exact if_neg hk
  rw [total_erase _ m k, hrest, add_zero, part, coeff]
  cases m.find? k with
  | none => rfl
  | some v => exact if_pos rfl

end Onnxsim.Lib.SparseSums
