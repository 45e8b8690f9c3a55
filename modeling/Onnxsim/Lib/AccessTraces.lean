import Mathlib.Data.List.Basic

namespace Onnxsim.Lib.AccessTraces

open List

variable {X A V : Type}

/-- A part of an object is read or gets a value. -/
inductive Access (X V : Type) where
  | read (x : X) (k : Nat)
  | write (x : X) (k : Nat) (v : V)

section

variable [DecidableEq A] (place : X → Nat → A)

def store (m : A → Option V) : Access X V → A → Option V
  | .read _ _ => m
  | .write x k v => Function.update m (place x k) (some v)

/-- What is stored after a trace, when nothing was stored before it. -/
def memory (tr : List (Access X V)) : A → Option V := tr.foldl (store place) fun _ => none

/-- The part is stored, and as it would be if every object had a place of its own. -/
def Holds [DecidableEq X] (tr : List (Access X V)) (x : X) (k : Nat) : Prop :=
  ∃ v, memory place tr (place x k) = some v ∧ memory Prod.mk tr (x, k) = some v

/-- Nothing else is written to the place of the part. -/
def Spares (tr : List (Access X V)) (x : X) (k : Nat) : Prop :=
  ∀ y j v, Access.write y j v ∈ tr → place y j = place x k → y = x ∧ j = k

end

variable [DecidableEq A] [DecidableEq X] {place : X → Nat → A} {tr tr' : List (Access X V)} {x : X} {k : Nat} {v : V}
  {own : X × Nat → Option V} {m : A → Option V} {a : Access X V}

theorem store_kept (hspares : Spares place [a] x k) (h : ∃ v, m (place x k) = some v ∧ own (x, k) = some v) :
    ∃ v, store place m a (place x k) = some v ∧ store Prod.mk own a (x, k) = some v := by
  cases a with
  | read y j => exact h
  | write y j w =>
    by_cases hplace : place y j = place x k
    · obtain ⟨rfl, rfl⟩ := hspares y j w (mem_singleton.mpr rfl) hplace
      exact ⟨w, Function.update_self _ _ _, Function.update_self _ _ _⟩
    · obtain ⟨v, hm, hown⟩ := h
      have hne : (x, k) ≠ (y, j) := by
        rintro heq
        cases heq
        exact hplace rfl
      refine ⟨v, ?_, ?_⟩
      · rw [store, Function.update_of_ne (Ne.symm hplace)]
        exact hm
      · rw [store, Function.update_of_ne hne]
        exact hown

omit [DecidableEq A] [DecidableEq X] in
theorem Spares.head (h : Spares place (a :: tr) x k) : Spares place [a] x k :=
  fun y j v hmem => h y j v (mem_cons.mpr (.inl (mem_singleton.mp hmem)))

omit [DecidableEq A] [DecidableEq X] in
theorem Spares.tail (h : Spares place (a :: tr) x k) : Spares place tr x k :=
  fun y j v hmem => h y j v (mem_cons_of_mem a hmem)

theorem foldl_kept (hspares : Spares place tr x k) (h : ∃ v, m (place x k) = some v ∧ own (x, k) = some v) :
    ∃ v, tr.foldl (store place) m (place x k) = some v ∧ tr.foldl (store Prod.mk) own (x, k) = some v := by
  induction tr generalizing m own with
  | nil => exact h
  | cons a tr ih => exact ih hspares.tail (store_kept hspares.head h)

theorem Holds.append (h : Holds place tr x k) (hspares : Spares place tr' x k) : Holds place (tr ++ tr') x k := by
  rw [Holds, memory, memory, foldl_append, foldl_append]
  exact foldl_kept hspares h

theorem foldl_written (hspares : Spares place tr x k) (h : Access.write x k v ∈ tr) :
    ∃ v, tr.foldl (store place) m (place x k) = some v ∧ tr.foldl (store Prod.mk) own (x, k) = some v := by
  induction tr generalizing m own with
  | nil => cases h
  | cons a tr ih =>
    obtain rfl | hrest := mem_cons.mp h
    · rw [foldl_cons, foldl_cons]
      apply foldl_kept hspares.tail
      exact ⟨v, Function.update_self _ _ _, Function.update_self _ _ _⟩
    · exact ih hspares.tail hrest

theorem holds_of_write (tr : List (Access X V)) (hspares : Spares place tr' x k) (h : Access.write x k v ∈ tr') :
    Holds place (tr ++ tr') x k := by
  rw [Holds, memory, memory, foldl_append, foldl_append]
  exact foldl_written hspares h

end Onnxsim.Lib.AccessTraces
