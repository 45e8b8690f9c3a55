import Onnxsim.Passes.Paddings

namespace Onnxsim.Passes.Pooling

open List Overflow.Arrays Gathers Windows
open Paddings (grid_lengths paddedShape_length)
open Reduce.Axes (ofFn_congr)

section

def Cell.map {β γ : Type} (f : β → γ) : Cell β → Cell γ
  | .element i => .element (f i)
  | .padding => .padding
  | .outside => .outside

def covered {β : Type} (l : List (Cell β)) : List β := l.filterMap Cell.read

def maxOf (l : List (Cell (WithBot ℚ))) : WithBot ℚ := (covered l).foldr max ⊥

def inside {β : Type} : Cell β → Bool
  | .outside => false
  | _ => true

/-- With `countIncludePad`, the places of a window in the padding count, but not those past it. -/
def denominator {β : Type} (countIncludePad : Bool) (l : List (Cell β)) : Nat :=
  if countIncludePad then l.countP inside else (covered l).length

def averageOf (countIncludePad : Bool) (l : List (Cell ℚ)) : ℚ := (covered l).sum / denominator countIncludePad l

variable {α : Type} [Inhabited α]

/-- The cells of the windows, each with the element that stands there, are reduced to the result. -/
def poolWith (kernel outSizes : List Nat) (at? : List Nat → List Nat → Cell (List Nat)) (reduce : List (Cell α) → α)
    (x : NDArray α) : NDArray α :=
  NDArray.ofFn (x.shape.headD 0 :: x.shape.getD 1 0 :: outSizes) fun idx =>
    reduce ((indices kernel).map fun js =>
      Cell.map (fun p => readAt x (idx.headD 0 :: idx.getD 1 0 :: p)) (at? (idx.drop 2) js))

def pool (attrs : Attributes) (reduce : List (Cell α) → α) (x : NDArray α) : Option (NDArray α) :=
  (attrs.kernelShape).bind fun kernel =>
    if x.shape.length = kernel.length + 2 then
      (grid attrs kernel (x.shape.drop 2)).map fun g =>
        poolWith kernel g.outSizes (cells g.axes (x.shape.drop 2)) reduce x
    else none

/-- A cell of a padded input is one of the input, or padding. -/
def through (begins : List Int) (sizes : List Nat) : Cell (List Nat) → Cell (List Nat)
  | .element q =>
    match unpad begins sizes q with
    | some p => .element p
    | none => .padding
  | c => c

end

theorem covered_map {β γ : Type} (g : β → γ) (l : List (Cell β)) : covered (l.map (Cell.map g)) = (covered l).map g := by
  induction l with
  | nil => rfl
  | cons c l ih =>
    cases c with
    | element i => exact congrArg (g i :: ·) ih
    | padding => exact ih
    | outside => exact ih

theorem denominator_map {β γ : Type} (g : β → γ) (b : Bool) (l : List (Cell β)) :
    denominator b (l.map (Cell.map g)) = denominator b l := by
  have hinside : (l.map (Cell.map g)).countP inside = l.countP inside := by
    rw [countP_map]
    apply countP_congr
    intro c _
    cases c <;> rfl
  rw [denominator, denominator, hinside, covered_map, length_map]

theorem foldr_max_le {l : List (WithBot ℚ)} {b : WithBot ℚ} : l.foldr max ⊥ ≤ b ↔ ∀ a ∈ l, a ≤ b := by
  induction l with
  | nil => simp
  | cons a l ih => rw [foldr_cons, max_le_iff, ih, forall_mem_cons]

theorem maxOf_congr {l l' : List (Cell (List Nat))} (h : ∀ p, p ∈ covered l ↔ p ∈ covered l') (g : List Nat → WithBot ℚ) :
    maxOf (l.map (Cell.map g)) = maxOf (l'.map (Cell.map g)) := by
  unfold maxOf
  rw [covered_map, covered_map]
  apply le_antisymm
  · rw [foldr_max_le]
    intro a ha
    obtain ⟨p, hp, rfl⟩ := List.mem_map.mp ha
    exact foldr_max_le.mp (le_refl _) _ (List.mem_map_of_mem ((h p).mp hp))
  · rw [foldr_max_le]
    intro a ha
    obtain ⟨p, hp, rfl⟩ := List.mem_map.mp ha
    exact foldr_max_le.mp (le_refl _) _ (List.mem_map_of_mem ((h p).mpr hp))

def weight (l : List (Cell (List Nat))) (p : List Nat) : ℚ := ((covered l).count p : ℚ) / denominator true l

theorem sum_by_count {l ps : List (List Nat)} (hnodup : ps.Nodup) (hall : ∀ p ∈ l, p ∈ ps) (g : List Nat → ℚ) :
    (l.map g).sum = (ps.map fun p => (l.count p : ℚ) * g p).sum := by
  induction l with
  | nil => simp
  | cons q l ih =>
    rw [forall_mem_cons] at hall
    have hterms : (ps.map fun p => ((q :: l).count p : ℚ) * g p) =
        ps.map fun p => (l.count p : ℚ) * g p + if p = q then g p else 0 := by
      apply map_congr_left
      intro p _
      rw [count_cons]
      by_cases hp : p = q
      · subst hp
        simp only [beq_self_eq_true, if_true, Nat.cast_add, Nat.cast_one]
        ring
      · rw [if_neg hp, if_neg (by simpa using fun h => hp h.symm), Nat.add_zero, add_zero]
    rw [hterms, sum_map_add, ← ih hall.2, sum_indicator hnodup hall.1 _ fun p hp => if_neg hp, if_pos rfl,
      map_cons, sum_cons, add_comm]

theorem averageOf_eq {l : List (Cell (List Nat))} {ps : List (List Nat)} (hnodup : ps.Nodup)
    (hall : ∀ p ∈ covered l, p ∈ ps) (g : List Nat → ℚ) :
    averageOf true (l.map (Cell.map g)) = (ps.map fun p => weight l p * g p).sum := by
  rw [averageOf, covered_map, denominator_map, sum_by_count hnodup hall]
  have hterms : (ps.map fun p => weight l p * g p) =
      ps.map fun p => ((covered l).count p : ℚ) * g p * (denominator true l : ℚ)⁻¹ := by
    apply map_congr_left
    intro p _
    rw [weight]
    ring
  rw [hterms, sum_map_mul_right]
  rfl

end Onnxsim.Passes.Pooling
