import Mathlib.Algebra.GroupWithZero.Nat
import Mathlib.Data.List.Sort
import Mathlib.Data.Nat.Choose.Basic

namespace Onnxsim.Lib.Combinadics

open List

/-- The place of a set, listed from the top, among the sets of as many numbers. -/
def place : List Nat → Nat
  | [] => 0
  | c :: cs => c.choose (cs.length + 1) + place cs

variable {cs : List Nat} {n c k r : Nat}

theorem place_lt (hdesc : cs.Pairwise (· > ·)) (hlt : ∀ c ∈ cs, c < n) : place cs < n.choose cs.length := by
  induction cs generalizing n with
  | nil => simp [place]
  | cons c cs ih =>
    obtain ⟨hbelow, hdesc⟩ := pairwise_cons.mp hdesc
    have hrest : place cs < c.choose cs.length := ih hdesc hbelow
    have hc : c + 1 ≤ n := hlt c mem_cons_self
    calc place (c :: cs) = c.choose (cs.length + 1) + place cs := rfl
      _ < c.choose cs.length + c.choose (cs.length + 1) := by omega
      _ = (c + 1).choose (cs.length + 1) := (Nat.choose_succ_succ c cs.length).symm
      _ ≤ n.choose (cs.length + 1) := Nat.choose_le_choose _ hc

/-- `c` is the greatest number with no more than `r` sets of `k + 1` numbers below it. -/
def Digit (k r c : Nat) : Prop := c.choose (k + 1) ≤ r ∧ r < (c + 1).choose (k + 1)

theorem Digit.unique {d : Nat} (hc : Digit k r c) (hd : Digit k r d) : c = d := by
  apply le_antisymm
  · by_contra hlt
    have hle := Nat.choose_le_choose (k + 1) (not_le.mp hlt)
    exact absurd hd.2 (not_lt.mpr (le_trans hle hc.1))
  · by_contra hlt
    have hle := Nat.choose_le_choose (k + 1) (not_le.mp hlt)
    exact absurd hc.2 (not_lt.mpr (le_trans hle hd.1))

theorem Digit.lt (h : Digit k r c) (hr : r < n.choose (k + 1)) : c < n := by
  by_contra hle
  have hmono := Nat.choose_le_choose (k + 1) (not_lt.mp hle)
  exact absurd hr (not_lt.mpr (le_trans hmono h.1))

theorem Digit.sub_lt (h : Digit k r c) : r - c.choose (k + 1) < c.choose k := by
  have hsucc := Nat.choose_succ_succ c k
  have hlt := h.2
  have hle := h.1
  simp only [Nat.succ_eq_add_one] at hsucc
  omega

theorem digit_place (hdesc : (c :: cs).Pairwise (· > ·)) : Digit cs.length (place (c :: cs)) c := by
  constructor
  · exact Nat.le_add_right _ _
  · apply place_lt hdesc
    intro d hd
    cases mem_cons.mp hd with
    | inl heq => omega
    | inr hmem => exact Nat.lt_succ_of_lt ((pairwise_cons.mp hdesc).1 d hmem)

theorem sub_le_choose (n k : Nat) : n - k ≤ n.choose (k + 1) := by
  induction n with
  | zero => simp
  | succ n ih =>
    by_cases hk : k ≤ n
    · have hpos := Nat.choose_pos hk
      rw [Nat.choose_succ_succ']
      omega
    · have hzero : n + 1 - k = 0 := by omega
      rw [hzero]
      exact Nat.zero_le _

end Onnxsim.Lib.Combinadics
