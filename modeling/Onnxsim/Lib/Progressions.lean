import Mathlib.Data.Set.Card
import Mathlib.Tactic.Linarith
import Mathlib.Tactic.Ring

namespace Onnxsim.Lib.Progressions

open List

/-- The terms `s, s + d, s + 2 d, …` that come before `e` in the direction of `d`. -/
def Terms (s e d : Int) : Set Int :=
  {i | ∃ k : Nat, i = s + k * d ∧ if 0 < d then i < e else e < i}

def count (s e d : Int) : Nat :=
  if 0 < d then (-((s - e) / d)).toNat else (-((e - s) / -d)).toNat

def terms (s d : Int) (n : Nat) : List Int := (List.range n).map fun k : Nat => s + k * d

variable {s e d : Int}

theorem count_of_pos (hd : 0 < d) : count s e d = (-((s - e) / d)).toNat := if_pos hd

theorem count_of_neg (hd : d < 0) : count s e d = (-((e - s) / -d)).toNat := if_neg (by omega)

variable {a i : Int}

theorem lt_neg_ediv_iff (hd : 0 < d) (k : Int) : k < -(a / d) ↔ a + k * d < 0 := by
  have h : k < -(a / d) ↔ a / d < -k := by omega
  rw [h, Int.ediv_lt_iff_lt_mul hd]
  constructor
  · intro hlt
    linarith [neg_mul k d]
  · intro hlt
    linarith [neg_mul k d]

theorem lt_count_iff (hd : d ≠ 0) (k : Nat) :
    k < count s e d ↔ if 0 < d then s + k * d < e else e < s + k * d := by
  by_cases hpos : 0 < d
  · rw [count_of_pos hpos, if_pos hpos]
    have h := lt_neg_ediv_iff (a := s - e) hpos k
    constructor
    · intro hk
      have := h.mp (by omega)
      linarith
    · intro hk
      have := h.mpr (by linarith)
      omega
  · have hneg : d < 0 := by omega
    rw [count_of_neg hneg, if_neg hpos]
    have h := lt_neg_ediv_iff (a := e - s) (d := -d) (by omega) k
    rw [mul_neg] at h
    constructor
    · intro hk
      have := h.mp (by omega)
      linarith
    · intro hk
      have := h.mpr (by linarith)
      omega

@[simp]
theorem length_terms (s d : Int) (n : Nat) : (terms s d n).length = n := by simp [terms]

theorem terms_zero (s d : Int) : terms s d 0 = [] := rfl

theorem terms_succ (s d : Int) (n : Nat) : terms s d (n + 1) = s :: terms (s + d) d n := by
  rw [terms, range_succ_eq_map, map_cons, List.map_map, terms]
  simp only [Nat.cast_zero, zero_mul, add_zero, List.cons.injEq, true_and]
  apply map_congr_left
  intro k _
  simp only [Function.comp_apply, Nat.succ_eq_add_one, Nat.cast_add, Nat.cast_one]
  ring

theorem mem_terms {n : Nat} : i ∈ terms s d n ↔ ∃ k < n, i = s + (k : Nat) * d := by
  simp only [terms, List.mem_map, mem_range]
  constructor
  · rintro ⟨k, hk, rfl⟩
    exact ⟨k, hk, rfl⟩
  · rintro ⟨k, hk, rfl⟩
    exact ⟨k, hk, rfl⟩

theorem nodup_terms (hd : d ≠ 0) (n : Nat) : (terms s d n).Nodup := by
  apply List.Nodup.map _ nodup_range
  intro j k h
  have hmul : (j : Int) * d = k * d := by
    have := h
    linarith
  exact_mod_cast mul_right_cancel₀ hd hmul

/-- The list of the first `count` terms holds the terms before the end and nothing else. -/
theorem mem_terms_count (hd : d ≠ 0) : i ∈ terms s d (count s e d) ↔ i ∈ Terms s e d := by
  rw [mem_terms]
  constructor
  · rintro ⟨k, hk, rfl⟩
    exact ⟨k, rfl, (lt_count_iff hd k).mp hk⟩
  · rintro ⟨k, rfl, hk⟩
    exact ⟨k, (lt_count_iff hd k).mpr hk, rfl⟩

theorem ncard_Terms (hd : d ≠ 0) : (Terms s e d).ncard = count s e d := by
  have hset : Terms s e d = ((terms s d (count s e d)).toFinset : Set Int) := by
    ext i
    rw [coe_toFinset, Set.mem_ofPred_eq, mem_terms_count hd]
  rw [hset, Set.ncard_coe_finset, toFinset_card_of_nodup (nodup_terms hd _), length_terms]

theorem add_sub_one_ediv (hd : 0 < d) : (a + d - 1) / d = -(-a / d) := by
  apply eq_of_forall_lt_iff
  intro k
  rw [lt_neg_ediv_iff hd, Int.lt_iff_add_one_le, Int.le_ediv_iff_mul_le hd, add_mul, one_mul]
  omega

theorem count_eq_zero_iff_of_pos (hd : 0 < d) : count s e d = 0 ↔ e ≤ s := by
  have hpos := lt_count_iff (s := s) (e := e) hd.ne' 0
  rw [if_pos hd] at hpos
  omega

theorem count_eq_zero_iff_of_neg (hd : d < 0) : count s e d = 0 ↔ s ≤ e := by
  have hpos := lt_count_iff (s := s) (e := e) hd.ne 0
  rw [if_neg (by omega)] at hpos
  omega

theorem count_step (hd : d ≠ 0) (h : 0 < count s e d) :
    count s e d = count (s + d) e d + 1 := by
  obtain ⟨m, hm⟩ := Nat.exists_eq_succ_of_ne_zero h.ne'
  have hall : ∀ k : Nat, k + 1 < count s e d ↔ k < count (s + d) e d := by
    intro k
    rw [lt_count_iff hd, lt_count_iff hd]
    have hk : s + ((k + 1 : Nat) : Int) * d = s + d + k * d := by push_cast; ring
    rw [hk]
  have hle := hall m
  have hge := hall (count (s + d) e d)
  rw [hm] at hle hge ⊢
  omega

end Onnxsim.Lib.Progressions
