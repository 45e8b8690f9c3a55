import Mathlib.Algebra.BigOperators.Pi

namespace Onnxsim.Lib.Adjoints

open List

variable {X V R : Type} [DecidableEq X] [AddCommMonoid V] [AddCommMonoid R] (pair : V →+ V →+ R)

/-- The gradients `G` paired with the directions `w`. -/
def balance (U : Finset X) (G w : X → V) : R := ∑ x ∈ U, pair (G x) (w x)

/-- The pairings of a list of gradients and one of directions, position by position. -/
def pairings (gs ds : List V) : R := (List.zipWith (fun g d => pair g d) gs ds).sum

/-- The directions that positions of one name contribute together. -/
def gather (xs : List X) (ds : List V) (x : X) : V :=
  (List.zipWith (fun y d => if y = x then d else 0) xs ds).sum

variable {pair} {U : Finset X} {G w v : X → V}

theorem balance_update {x : X} (hx : x ∈ U) (c : V) :
    balance pair U (Function.update G x (G x + c)) w = balance pair U G w + pair c (w x) := by
  rw [balance, balance, ← Finset.add_sum_erase U _ hx, ← Finset.add_sum_erase U _ hx]
  have hrest : ∀ y ∈ U.erase x, pair (Function.update G x (G x + c) y) (w y) = pair (G y) (w y) := by
    intro y hy
    rw [Function.update_of_ne (Finset.ne_of_mem_erase hy)]
  rw [Finset.sum_congr rfl hrest, Function.update_self, map_add, AddMonoidHom.add_apply]
  exact add_right_comm _ _ _

omit [DecidableEq X] in
theorem balance_add (d : X → V) :
    balance pair U G (fun x => w x + d x) = balance pair U G w + balance pair U G d := by
  simp only [balance, map_add, Finset.sum_add_distrib]

theorem balance_single {y : X} (hy : y ∈ U) (d : V) :
    balance pair U G (fun x => if y = x then d else 0) = pair (G y) d := by
  rw [balance, Finset.sum_eq_single y]
  · rw [if_pos rfl]
  · intro x _ hne
    rw [if_neg fun he => hne he.symm, map_zero]
  · exact fun hnot => absurd hy hnot

theorem gather_nil_left (ds : List V) (x : X) : gather [] ds x = 0 := by
  rw [gather, zipWith_nil_left, sum_nil]

theorem gather_nil_right (xs : List X) (x : X) : gather xs ([] : List V) x = 0 := by
  rw [gather, zipWith_nil_right, sum_nil]

omit [DecidableEq X] in
theorem balance_zero (h : ∀ x, w x = 0) : balance pair U G w = 0 := by
  apply Finset.sum_eq_zero
  intro x _
  rw [h x, map_zero]

/-- Directions that come from the positions of a list are paired position by position. -/
theorem balance_gather {ys : List X} (hys : ∀ y ∈ ys, y ∈ U) (ds : List V) :
    balance pair U G (gather ys ds) = pairings pair (ys.map G) ds := by
  induction ys generalizing ds with
  | nil =>
    rw [balance_zero (gather_nil_left ds), pairings, map_nil, zipWith_nil_left, sum_nil]
  | cons y ys ih =>
    cases ds with
    | nil => rw [balance_zero (gather_nil_right _), pairings, zipWith_nil_right, sum_nil]
    | cons d ds =>
      have hsplit : gather (y :: ys) (d :: ds) = fun x => (if y = x then d else 0) + gather ys ds x := by
        funext x
        simp [gather]
      rw [hsplit, balance_add, balance_single (hys y mem_cons_self),
        ih fun z hz => hys z (mem_cons_of_mem _ hz)]
      simp [pairings]

omit [DecidableEq X] in
theorem balance_congr (h : ∀ x ∈ U, G x = 0 ∨ w x = v x) : balance pair U G w = balance pair U G v := by
  refine Finset.sum_congr rfl fun x hx => ?_
  cases h x hx with
  | inl hzero => rw [hzero, map_zero, AddMonoidHom.zero_apply, AddMonoidHom.zero_apply]
  | inr hsame => rw [hsame]

omit [DecidableEq X] in
theorem balance_subset {S : Finset X} (hS : S ⊆ U) (h : ∀ x ∈ U, x ∉ S → G x = 0 ∨ w x = 0) :
    balance pair U G w = balance pair S G w := by
  refine (Finset.sum_subset hS fun x hx hnot => ?_).symm
  cases h x hx hnot with
  | inl hzero => rw [hzero, map_zero, AddMonoidHom.zero_apply]
  | inr hzero => rw [hzero, map_zero]

end Onnxsim.Lib.Adjoints
