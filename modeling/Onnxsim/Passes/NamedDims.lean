import Onnxsim.Reduce.Fusion

namespace Onnxsim.Passes.NamedDims

open List
open Reduce.Fusion (Dimension)

/-- Two recorded dimensions are the same number, or the same symbol if it has a name. -/
def sameDim : Dimension → Dimension → Bool
  | .size a, .size b => a == b
  | .param s, .param t => s != "" && s == t
  | _, _ => false

def isOne : Dimension → Bool
  | .size d => d == 1
  | _ => false

/-- The recorded dimension is the real one, under the values of the symbols. -/
def Means (ν : String → Nat) : Dimension → Nat → Prop
  | .unknown, _ => True
  | .param s, n => s ≠ "" → n = ν s
  | .size d, n => (n : Int) = d

/-- What is recorded of a tensor, if anything is, holds of its shape. -/
def Conforms (ν : String → Nat) (sizes : Option (List Dimension)) (shape : List Nat) : Prop :=
  ∀ ds, sizes = some ds → List.Forall₂ (Means ν) ds shape

variable {ν : String → Nat} {a b : Dimension} {n m : Nat}

theorem conforms_some {ds : List Dimension} {shape : List Nat} (h : List.Forall₂ (Means ν) ds shape) :
    Conforms ν (some ds) shape := by
  intro es hes
  obtain rfl := Option.some.inj hes
  exact h

theorem eq_of_sameDim (h : sameDim a b = true) (ha : Means ν a n) (hb : Means ν b m) : n = m := by
  cases a with
  | unknown => simp [sameDim] at h
  | param s =>
    cases b with
    | unknown => simp [sameDim] at h
    | param t =>
      obtain ⟨hs, rfl⟩ : s ≠ "" ∧ s = t := by simpa [sameDim] using h
      exact (ha hs).trans (hb hs).symm
    | size d => simp [sameDim] at h
  | size d =>
    cases b with
    | unknown => simp [sameDim] at h
    | param t => simp [sameDim] at h
    | size e =>
      have hde : d = e := by simpa [sameDim] using h
      have hn : (n : Int) = d := ha
      have hm : (m : Int) = e := hb
      omega

theorem eq_one_of_isOne (h : isOne a = true) (ha : Means ν a n) : n = 1 := by
  cases a with
  | unknown => simp [isOne] at h
  | param s => simp [isOne] at h
  | size d =>
    have hd : d = 1 := by simpa [isOne] using h
    have hn : (n : Int) = d := ha
    omega

theorem eq_of_forall_sameDim {as bs : List Dimension} {s t : List Nat}
    (h : (List.zipWith sameDim as bs).all id = true) (ha : List.Forall₂ (Means ν) as s)
    (hb : List.Forall₂ (Means ν) bs t) (hlen : s.length = t.length) : s = t := by
  induction ha generalizing bs t with
  | nil => exact (length_eq_zero_iff.mp hlen.symm).symm
  | cons hd hrest ih =>
    cases hb with
    | nil => cases hlen
    | cons hd' hrest' =>
      rw [zipWith_cons_cons, all_cons, Bool.and_eq_true] at h
      rw [eq_of_sameDim h.1 hd hd', ih h.2 hrest' (Nat.succ.inj hlen)]

theorem eq_ones_of_all_isOne {as : List Dimension} {s : List Nat} (h : as.all isOne = true)
    (ha : List.Forall₂ (Means ν) as s) : s = List.replicate s.length 1 := by
  induction ha with
  | nil => rfl
  | cons hd hrest ih =>
    rw [all_cons, Bool.and_eq_true] at h
    rw [length_cons, replicate_succ, eq_one_of_isOne h.1 hd, ← ih h.2]

end Onnxsim.Passes.NamedDims
