import Mathlib.Algebra.Order.Field.Basic

namespace Onnxsim.Lib.Expressions

open List

/-- Piecewise polynomial expressions over the variables `P`. -/
inductive Expr (𝕜 P : Type) where
  | var (x : P)
  | num (v : 𝕜)
  | add (a b : Expr 𝕜 P)
  | sub (a b : Expr 𝕜 P)
  | mul (a b : Expr 𝕜 P)
  | neg (a : Expr 𝕜 P)
  | ifLt (a b t e : Expr 𝕜 P)

namespace Expr

variable {𝕜 P Q : Type}

def rename (f : P → Q) : Expr 𝕜 P → Expr 𝕜 Q
  | var x => var (f x)
  | num v => num v
  | add a b => add (rename f a) (rename f b)
  | sub a b => sub (rename f a) (rename f b)
  | mul a b => mul (rename f a) (rename f b)
  | neg a => neg (rename f a)
  | ifLt a b t e => ifLt (rename f a) (rename f b) (rename f t) (rename f e)

/-- Every variable satisfies `R`. -/
def All (R : P → Prop) : Expr 𝕜 P → Prop
  | var x => R x
  | num _ => True
  | add a b => All R a ∧ All R b
  | sub a b => All R a ∧ All R b
  | mul a b => All R a ∧ All R b
  | neg a => All R a
  | ifLt a b t e => All R a ∧ All R b ∧ All R t ∧ All R e

variable {e : Expr 𝕜 P} {R : P → Prop}

theorem All.mono {S : P → Prop} (hRS : ∀ x, R x → S x) (h : All R e) : All S e := by
  induction e with
  | var x => exact hRS x h
  | num v => trivial
  | add a b iha ihb | sub a b iha ihb | mul a b iha ihb => exact ⟨iha h.1, ihb h.2⟩
  | neg a ih => exact ih h
  | ifLt a b t e iha ihb iht ihe => exact ⟨iha h.1, ihb h.2.1, iht h.2.2.1, ihe h.2.2.2⟩

def sum [Zero 𝕜] : List (Expr 𝕜 P) → Expr 𝕜 P
  | [] => num 0
  | e :: rest => add e (sum rest)

theorem rename_sum [Zero 𝕜] (f : P → Q) (l : List (Expr 𝕜 P)) : (sum l).rename f = sum (l.map (rename f)) := by
  induction l with
  | nil => rfl
  | cons e l ih => rw [sum, rename, ih, map_cons, sum]

theorem all_sum [Zero 𝕜] {l : List (Expr 𝕜 P)} (h : ∀ e ∈ l, All R e) : All R (sum l) := by
  induction l with
  | nil => trivial
  | cons e l ih => exact ⟨h e mem_cons_self, ih fun a ha => h a (mem_cons_of_mem _ ha)⟩

variable [Field 𝕜] [LinearOrder 𝕜]

def eval (v : P → 𝕜) : Expr 𝕜 P → 𝕜
  | var x => v x
  | num c => c
  | add a b => eval v a + eval v b
  | sub a b => eval v a - eval v b
  | mul a b => eval v a * eval v b
  | neg a => - eval v a
  | ifLt a b t e => if eval v a < eval v b then eval v t else eval v e

theorem eval_rename {f : P → Q} {v : Q → 𝕜} {w : P → 𝕜} (h : All (fun x => v (f x) = w x) e) :
    (e.rename f).eval v = e.eval w := by
  induction e with
  | var x => exact h
  | num c => rfl
  | add a b iha ihb | sub a b iha ihb | mul a b iha ihb => rw [rename, eval, eval, iha h.1, ihb h.2]
  | neg a ih => rw [rename, eval, eval, ih h]
  | ifLt a b t e iha ihb iht ihe => rw [rename, eval, eval, iha h.1, ihb h.2.1, iht h.2.2.1, ihe h.2.2.2]

end Expr

end Onnxsim.Lib.Expressions
