import Mathlib.Data.List.Nodup
import Onnxsim.Lib.Searching

namespace Onnxsim.Lib.FreshNames

open List Separators

def numbered (stem : String) (k : Nat) : String := stem ++ "_" ++ toString k

theorem numbered_inj {s t : String} {j k : Nat} (h : numbered s j = numbered t k) : j = k := by
  have hchars := congrArg String.toList h
  simp only [numbered, String.toList_append] at hchars
  have hdigits : ∀ n : Nat, (toString n).toList = Nat.toDigits 10 n := fun n => Nat.toList_repr
  have hbar : "_".toList = ['_'] := rfl
  rw [hdigits, hdigits, hbar, append_assoc, append_assoc _ _ (Nat.toDigits 10 k)] at hchars
  have hsplit := append_cons_inj_right Nat.underscore_not_in_toDigits Nat.underscore_not_in_toDigits hchars
  have hvalue := congrArg (fun l => Nat.ofDigitChars 10 l 0) hsplit.2
  simpa only [Nat.ofDigitChars_ten_toDigits] using hvalue

theorem numbered_injective (stem : String) : Function.Injective (numbered stem) := fun _ _ h => numbered_inj h

theorem numbered_ne_empty (stem : String) (k : Nat) : numbered stem k ≠ "" := by
  intro hempty
  have hchars := congrArg String.toList hempty
  simp [numbered, String.toList_append] at hchars

section

variable {α : Type} [DecidableEq α] {name : Nat → α} {used : List α}

/-- The first number from `k` on whose name is not used, among `fuel` of them. -/
def search (name : Nat → α) (used : List α) : Nat → Nat → Nat
  | 0, k => k
  | fuel + 1, k => if name k ∈ used then search name used fuel (k + 1) else k

theorem used_of_search {fuel k : Nat} (h : name (search name used fuel k) ∈ used) :
    ∀ j < fuel, name (k + j) ∈ used := by
  induction fuel generalizing k with
  | zero =>
    intro j hj
    cases hj
  | succ fuel ih =>
    rw [search] at h
    split at h
    · next hk =>
      intro j hj
      cases j with
      | zero => exact hk
      | succ j =>
        have hlater := ih h j (Nat.lt_of_succ_lt_succ hj)
        rwa [Nat.add_right_comm] at hlater
    · next hk => exact absurd h hk

theorem search_fresh (hinj : Function.Injective name) {fuel : Nat} (hfuel : used.length < fuel) (k : Nat) :
    name (search name used fuel k) ∉ used := by
  intro h
  have hused := used_of_search h
  have hnodup : ((List.range fuel).map fun j => name (k + j)).Nodup := by
    apply List.Nodup.map _ nodup_range
    intro i j hij
    exact Nat.add_left_cancel (hinj hij)
  have hsub : ((List.range fuel).map fun j => name (k + j)) ⊆ used := by
    intro x hx
    obtain ⟨j, hj, rfl⟩ := List.mem_map.mp hx
    exact hused j (mem_range.mp hj)
  have hlen := List.Nodup.length_le_of_subset hnodup hsub
  rw [length_map, length_range] at hlen
  omega

end

/-- The names taken so far and the number of the last one made up. -/
structure Naming where
  used : List String
  counter : Nat

/-- The stem with the first number after the last one under which it is not taken. -/
def fresh (stem : String) (s : Naming) : String × Naming :=
  let k := search (numbered stem) s.used (s.used.length + 1) (s.counter + 1)
  (numbered stem k, ⟨numbered stem k :: s.used, k⟩)

theorem fresh_spec (stem : String) (s : Naming) :
    (fresh stem s).1 ∉ s.used ∧ (fresh stem s).1 ≠ "" ∧ (fresh stem s).2.used = (fresh stem s).1 :: s.used := by
  refine ⟨?_, numbered_ne_empty stem _, rfl⟩
  exact search_fresh (numbered_injective stem) (Nat.lt_succ_self _) _

end Onnxsim.Lib.FreshNames
