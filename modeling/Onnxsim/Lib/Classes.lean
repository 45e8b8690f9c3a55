import Mathlib.Data.List.Induction
import Mathlib.Logic.Relation

namespace Onnxsim.Lib.Classes

open List

variable {α : Type} [DecidableEq α]

/-- A union-find structure, seen through what `find` returns for every element; how the parent
pointers are stored and compressed does not show. -/
structure UnionFind (α : Type) where
  find : α → α

namespace UnionFind

def new : UnionFind α := ⟨fun a => a⟩

/-- The class of `a` gets the representative of `b`. -/
def union (uf : UnionFind α) (a b : α) : UnionFind α :=
  ⟨fun x => if uf.find x = uf.find a then uf.find b else uf.find x⟩

def unionAll (pairs : List (α × α)) : UnionFind α :=
  pairs.foldl (fun uf p => uf.union p.1 p.2) new

theorem unionAll_append (pairs : List (α × α)) (p : α × α) :
    unionAll (pairs ++ [p]) = (unionAll pairs).union p.1 p.2 := by
  rw [unionAll, foldl_append]
  rfl

variable {pairs : List (α × α)} {x y : α}

theorem eqvGen_of_find_eq (h : (unionAll pairs).find x = (unionAll pairs).find y) :
    Relation.EqvGen (fun a b => (a, b) ∈ pairs) x y := by
  induction pairs using List.reverseRecOn generalizing x y with
  | nil =>
    have hxy : x = y := h
    exact hxy ▸ .refl x
  | append_singleton pairs p ih =>
    have hold : ∀ {a b}, (unionAll pairs).find a = (unionAll pairs).find b →
        Relation.EqvGen (fun a b => (a, b) ∈ pairs ++ [p]) a b := fun hab =>
      Relation.EqvGen.mono (fun _ _ hm => mem_append_left _ hm) _ _ (ih hab)
    have hnew : Relation.EqvGen (fun a b => (a, b) ∈ pairs ++ [p]) p.1 p.2 :=
      .rel _ _ (mem_append_right _ mem_cons_self)
    rw [unionAll_append] at h
    simp only [union] at h
    by_cases hx : (unionAll pairs).find x = (unionAll pairs).find p.1
    · by_cases hy : (unionAll pairs).find y = (unionAll pairs).find p.1
      · exact hold (hx.trans hy.symm)
      · rw [if_pos hx, if_neg hy] at h
        exact .trans _ _ _ (hold hx) (.trans _ _ _ hnew (hold h))
    · by_cases hy : (unionAll pairs).find y = (unionAll pairs).find p.1
      · rw [if_neg hx, if_pos hy] at h
        exact .trans _ _ _ (hold h) (.symm _ _ (.trans _ _ _ (hold hy) hnew))
      · rw [if_neg hx, if_neg hy] at h
        exact hold h

theorem find_eq_of_union {uf : UnionFind α} (h : uf.find x = uf.find y) (a b : α) :
    (uf.union a b).find x = (uf.union a b).find y := by
  simp only [union, h]

theorem find_eq_of_mem {p : α × α} (h : p ∈ pairs) : (unionAll pairs).find p.1 = (unionAll pairs).find p.2 := by
  induction pairs using List.reverseRecOn with
  | nil => cases h
  | append_singleton pairs q ih =>
    rw [unionAll_append]
    rcases mem_append.mp h with h | h
    · exact find_eq_of_union (ih h) q.1 q.2
    · rw [mem_singleton.mp h]
      simp only [union, if_pos]
      split <;> rfl

end UnionFind

theorem reflTransGen_of_eqvGen {α : Type} {r : α → α → Prop} (hdet : ∀ a b c, r a b → r a c → b = c) {a m : α}
    (hend : ∀ c, ¬ r m c) (h : Relation.EqvGen r a m) : Relation.ReflTransGen r a m := by
  have hequiv : Equivalence (Relation.Join (Relation.ReflTransGen r)) :=
    Relation.equivalence_join_reflTransGen fun a b c hb hc => ⟨b, .refl, hdet a b c hb hc ▸ .refl⟩
  have hjoin : Relation.Join (Relation.ReflTransGen r) a m := by
    clear hend
    induction h with
    | rel a b h => exact ⟨b, .single h, .refl⟩
    | refl a => exact hequiv.refl a
    | symm a b _ ih => exact hequiv.symm ih
    | trans a b c _ _ hab hbc => exact hequiv.trans hab hbc
  obtain ⟨c, hac, hmc⟩ := hjoin
  rcases hmc.cases_head with rfl | ⟨d, hd, -⟩
  · exact hac
  · exact absurd hd (hend d)

end Onnxsim.Lib.Classes
