import Onnxsim.Lib.Combinadics

namespace Onnxsim.IcQuant.Combinadics

open List Lib.Combinadics

def sortedAsc (combo : List Nat) : List Nat := combo.mergeSort (· ≤ ·)

def sortedDesc (combo : List Nat) : List Nat := combo.mergeSort (· ≥ ·)

/-- `_combinadic_rank`, which does not look at `n`. -/
def combinadicRank (combo : List Nat) (_n : Nat) : Nat :=
  ((sortedDesc combo).zipIdx.map fun p => p.1.choose (combo.length - p.2)).sum

/-- The inner loop for the digit `i + 1`, from `c` on. -/
def advance (i remaining c : Nat) : Nat :=
  if (c + 1).choose (i + 1) ≤ remaining then advance i remaining (c + 1) else c
termination_by remaining + i + 1 - c
decreasing_by
  have hle := sub_le_choose (c + 1) i
  omega

/-- The outer loop: the digits from `i` down to one. -/
def digits : Nat → Nat → List Nat
  | 0, _ => []
  | i + 1, remaining =>
    advance i remaining i :: digits i (remaining - (advance i remaining i).choose (i + 1))

/-- `_combinadic_unrank`, which does not look at `n` either. -/
def combinadicUnrank (rank k _n : Nat) : List Nat := sortedAsc (digits k rank)

theorem advance_digit (i remaining c : Nat) (h : c.choose (i + 1) ≤ remaining) :
    Digit i remaining (advance i remaining c) := by
  fun_induction advance i remaining c with
  | case1 c hle ih => exact ih hle
  | case2 c hgt => exact ⟨h, not_le.mp hgt⟩

theorem digit_head (i remaining : Nat) : Digit i remaining (advance i remaining i) := by
  apply advance_digit
  rw [Nat.choose_succ_self]
  exact Nat.zero_le _

theorem digits_place {cs : List Nat} (hdesc : cs.Pairwise (· > ·)) : digits cs.length (place cs) = cs := by
  induction cs with
  | nil => rfl
  | cons c cs ih =>
    have hhead : advance cs.length (place (c :: cs)) cs.length = c :=
      (digit_head _ _).unique (digit_place hdesc)
    have hrest : place (c :: cs) - c.choose (cs.length + 1) = place cs := Nat.add_sub_cancel_left _ _
    rw [length_cons, digits, hhead, hrest, ih (pairwise_cons.mp hdesc).2]

theorem length_digits (i remaining : Nat) : (digits i remaining).length = i := by
  induction i generalizing remaining with
  | zero => rfl
  | succ i ih => rw [digits, length_cons, ih]

variable {n remaining i : Nat}

theorem digits_lt (h : remaining < n.choose i) : ∀ c ∈ digits i remaining, c < n := by
  induction i generalizing remaining n with
  | zero => simp [digits]
  | succ i ih =>
    have hdigit := digit_head i remaining
    have hhead := hdigit.lt h
    intro c hc
    rw [digits, mem_cons] at hc
    cases hc with
    | inl heq => omega
    | inr hmem => exact lt_trans (ih hdigit.sub_lt c hmem) hhead

theorem digits_desc (h : remaining < n.choose i) : (digits i remaining).Pairwise (· > ·) := by
  induction i generalizing remaining n with
  | zero => simp [digits]
  | succ i ih =>
    have hrest := (digit_head i remaining).sub_lt
    rw [digits, pairwise_cons]
    exact ⟨digits_lt hrest, ih hrest⟩

theorem place_digits (h : remaining < n.choose i) : place (digits i remaining) = remaining := by
  induction i generalizing remaining n with
  | zero =>
    rw [Nat.choose_zero_right] at h
    simp [digits, place]
    omega
  | succ i ih =>
    have hdigit := digit_head i remaining
    rw [digits, place, length_digits, ih hdigit.sub_lt]
    exact Nat.add_sub_cancel' hdigit.1

variable {combo cs : List Nat}

theorem sortedDesc_desc (hnodup : combo.Nodup) : (sortedDesc combo).Pairwise (· > ·) := by
  have hperm : (sortedDesc combo).Perm combo := mergeSort_perm _ _
  have hsorted : (sortedDesc combo).Pairwise (· ≥ ·) := by
    apply pairwise_mergeSort' (r := (· ≥ ·))
  have hne : (sortedDesc combo).Pairwise (· ≠ ·) := hperm.nodup_iff.mpr hnodup
  exact (hsorted.and hne).imp fun h => lt_of_le_of_ne h.1 h.2.symm

theorem sortedDesc_perm (combo : List Nat) : (sortedDesc combo).Perm combo := mergeSort_perm _ _

theorem sortedDesc_eq (hperm : cs.Perm combo) (hdesc : cs.Pairwise (· > ·)) : sortedDesc combo = cs := by
  apply List.Perm.eq_of_pairwise' (r := (· ≥ ·)) ?_ (hdesc.imp fun h => le_of_lt h)
  · exact (sortedDesc_perm combo).trans hperm.symm
  · exact pairwise_mergeSort' (r := (· ≥ ·)) combo

theorem sortedAsc_congr (hperm : cs.Perm combo) : sortedAsc cs = sortedAsc combo := by
  apply List.Perm.eq_of_pairwise' (r := (· ≤ ·)) (pairwise_mergeSort' _ _) (pairwise_mergeSort' _ _)
  exact ((mergeSort_perm cs _).trans hperm).trans (mergeSort_perm combo _).symm

theorem sum_zipIdx (cs : List Nat) (i : Nat) :
    ((cs.zipIdx i).map fun p => p.1.choose (i + cs.length - p.2)).sum = place cs := by
  induction cs generalizing i with
  | nil => rfl
  | cons c cs ih =>
    have hlen : i + (cs.length + 1) = i + 1 + cs.length := by omega
    rw [zipIdx_cons, map_cons, sum_cons, length_cons, Nat.add_sub_cancel_left, hlen, ih (i + 1)]
    rfl

theorem combinadicRank_eq (combo : List Nat) (n : Nat) : combinadicRank combo n = place (sortedDesc combo) := by
  have hlen := (sortedDesc_perm combo).length_eq
  have hsum := sum_zipIdx (sortedDesc combo) 0
  simp only [Nat.zero_add] at hsum
  rw [← hsum, hlen]
  rfl

theorem rank_lt {combo : List Nat} (hnodup : combo.Nodup) (hlt : ∀ c ∈ combo, c < n) :
    combinadicRank combo n < n.choose combo.length := by
  rw [combinadicRank_eq, ← (sortedDesc_perm combo).length_eq]
  apply place_lt (sortedDesc_desc hnodup)
  intro c hc
  exact hlt c ((sortedDesc_perm combo).mem_iff.mp hc)

theorem unrank_rank {combo : List Nat} (n : Nat) (hnodup : combo.Nodup) :
    combinadicUnrank (combinadicRank combo n) combo.length n = sortedAsc combo := by
  have hlen := (sortedDesc_perm combo).length_eq
  rw [combinadicUnrank, combinadicRank_eq, ← hlen, digits_place (sortedDesc_desc hnodup)]
  exact sortedAsc_congr (sortedDesc_perm combo)

theorem unrank_perm (rank k n : Nat) : (combinadicUnrank rank k n).Perm (digits k rank) := mergeSort_perm _ _

theorem rank_unrank {rank k : Nat} (h : rank < n.choose k) : combinadicRank (combinadicUnrank rank k n) n = rank := by
  rw [combinadicRank_eq, sortedDesc_eq (unrank_perm rank k n).symm (digits_desc h), place_digits h]

/-- Ranking and unranking are inverse between the subsets of `k` numbers below `n` and the ranks below
`n` choose `k`. -/
theorem combinadic_bijection (n k : Nat) :
    (∀ combo : List Nat, combo.length = k → combo.Nodup → (∀ c ∈ combo, c < n) →
      combinadicRank combo n < n.choose k ∧
        combinadicUnrank (combinadicRank combo n) k n = sortedAsc combo) ∧
    ∀ rank < n.choose k,
      (combinadicUnrank rank k n).length = k ∧ (combinadicUnrank rank k n).Nodup ∧
        (∀ c ∈ combinadicUnrank rank k n, c < n) ∧ combinadicRank (combinadicUnrank rank k n) n = rank := by
  constructor
  · intro combo hlen hnodup hlt
    subst hlen
    exact ⟨rank_lt hnodup hlt, unrank_rank n hnodup⟩
  · intro rank hrank
    have hperm := unrank_perm rank k n
    refine ⟨?_, ?_, ?_, rank_unrank hrank⟩
    · rw [hperm.length_eq, length_digits]
    · rw [hperm.nodup_iff]
      exact (digits_desc hrank).imp fun h => (ne_of_lt h).symm
    · intro c hc
      exact digits_lt hrank c (hperm.mem_iff.mp hc)

/-- The lowest and the highest pair of five numbers, given in both orders. -/
theorem combinadic_bijection_pairs :
    combinadicUnrank (combinadicRank [1, 0] 5) 2 5 = sortedAsc [1, 0] ∧
      combinadicRank [4, 3] 5 < 10 ∧ combinadicRank (combinadicUnrank 9 2 5) 5 = 9 :=
  ⟨((combinadic_bijection 5 2).1 [1, 0] rfl (by decide) (by decide)).2,
    ((combinadic_bijection 5 2).1 [4, 3] rfl (by decide) (by decide)).1,
    ((combinadic_bijection 5 2).2 9 (by decide)).2.2.2⟩

end Onnxsim.IcQuant.Combinadics
