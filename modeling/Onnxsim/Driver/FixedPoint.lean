import Mathlib.Logic.Function.Basic

namespace Onnxsim.Driver.FixedPoint

variable {M F : Type}

/-- What a driver leaves behind. `executed` counts the calls of step functions. -/
structure Outcome (M : Type) where
  model : M
  converged : Bool
  executed : Nat

section

variable [DecidableEq F]

/-- The `while` loop of the fingerprint overload. -/
def fingerprintLoop (fingerprint : M → F) (f1 f2 : M → M) :
    Nat → F → F → M → Nat → Outcome M
  | 0, _, _, model, executed => ⟨model, false, executed⟩
  | maxIters + 1, fpPrev, fpCur, model, executed =>
    if fpCur = fpPrev then ⟨model, true, executed⟩
    else
      let model₁ := f1 model
      if fingerprint model₁ = fpCur then ⟨model₁, true, executed + 1⟩
      else
        let model₂ := f2 model₁
        fingerprintLoop fingerprint f1 f2 maxIters (fingerprint model₁) (fingerprint model₂) model₂
          (executed + 2)

def fixedPointFn (fingerprint : M → F) (f1 f2 : M → M) (maxIters : Nat) (model : M) : Outcome M :=
  let model₁ := f1 model
  let model₂ := f2 model₁
  fingerprintLoop fingerprint f1 f2 maxIters (fingerprint model₁) (fingerprint model₂) model₂ 2

end

/-- The loop of the overload whose steps report themselves whether they changed the model. -/
def changedLoop (f1 f2 : M → Bool × M) : Nat → M → Nat → Outcome M
  | 0, model, executed => ⟨model, false, executed⟩
  | maxIters + 1, model, executed =>
    let r₁ := f1 model
    let r₂ := f2 r₁.2
    if !r₁.1 && !r₂.1 then ⟨r₂.2, true, executed + 2⟩
    else changedLoop f1 f2 maxIters r₂.2 (executed + 2)

def fixedPointFnChanged (f1 f2 : M → Bool × M) (maxIters : Nat) (model : M) : Outcome M :=
  changedLoop f1 f2 maxIters model 0

variable {k : Nat}

section

/-- The step that runs after `k` steps. -/
def stepAt (f1 f2 : M → M) (k : Nat) : M → M := if k % 2 = 0 then f1 else f2

/-- The model after `k` steps. -/
def alternate (f1 f2 : M → M) (model : M) : Nat → M
  | 0 => model
  | k + 1 => stepAt f1 f2 k (alternate f1 f2 model k)

variable (f1 f2 : M → M) (model : M)

theorem alternate_odd (n : Nat) :
    alternate f1 f2 model (2 * n + 1) = f1 (alternate f1 f2 model (2 * n)) := by
  rw [alternate, stepAt, if_pos (by omega)]

theorem alternate_even (n : Nat) :
    alternate f1 f2 model (2 * n + 2) = f2 (alternate f1 f2 model (2 * n + 1)) := by
  rw [alternate, stepAt, if_neg (by omega)]

/-- Two equal states in a row: the step between them is at rest, and the one before it is if applying
it twice is applying it once. -/
theorem rest_of_repeat (h : alternate f1 f2 model (k + 2) = alternate f1 f2 model (k + 1)) :
    stepAt f1 f2 (k + 1) (alternate f1 f2 model (k + 2)) = alternate f1 f2 model (k + 2) ∧
      ((∀ x, stepAt f1 f2 k (stepAt f1 f2 k x) = stepAt f1 f2 k x) →
        stepAt f1 f2 k (alternate f1 f2 model (k + 2)) = alternate f1 f2 model (k + 2)) := by
  constructor
  · calc stepAt f1 f2 (k + 1) (alternate f1 f2 model (k + 2))
        = stepAt f1 f2 (k + 1) (alternate f1 f2 model (k + 1)) := by rw [h]
      _ = alternate f1 f2 model (k + 2) := rfl
  · intro hidem
    rw [h, alternate, hidem]

end

/-- What the fingerprint overload promises: the step that ran last is at rest on a converged model, and
every step between the first and the last changed one that did not converge. -/
structure FingerprintReport (f1 f2 : M → M) (maxIters : Nat) (model : M) (o : Outcome M) : Prop where
  two_le : 2 ≤ o.executed
  model_eq : o.model = alternate f1 f2 model o.executed
  rest : o.converged = true → stepAt f1 f2 (o.executed - 1) o.model = o.model
  rest_both : o.converged = true →
    (∀ x, stepAt f1 f2 (o.executed - 2) (stepAt f1 f2 (o.executed - 2) x) =
      stepAt f1 f2 (o.executed - 2) x) → f1 o.model = o.model ∧ f2 o.model = o.model
  changed : o.converged = false → o.executed = 2 * maxIters + 2 ∧
    ∀ k, 0 < k → k + 1 < o.executed → alternate f1 f2 model (k + 1) ≠ alternate f1 f2 model k

/-- What the other overload promises: a converged model is at rest, and every round changed one that
did not converge. -/
structure ChangedReport (f1 f2 : M → M) (maxIters : Nat) (model : M) (o : Outcome M) : Prop where
  model_eq : o.model = alternate f1 f2 model o.executed
  rest : o.converged = true → f1 o.model = o.model ∧ f2 o.model = o.model
  changed : o.converged = false → o.executed = 2 * maxIters ∧
    ∀ n < maxIters, alternate f1 f2 model (2 * n + 1) ≠ alternate f1 f2 model (2 * n) ∨
      alternate f1 f2 model (2 * n + 2) ≠ alternate f1 f2 model (2 * n + 1)

section

variable (f1 f2 : M → M) (maxIters : Nat) (model : M)

theorem stepAt_both {x : M} (h₁ : stepAt f1 f2 k x = x) (h₂ : stepAt f1 f2 (k + 1) x = x) : f1 x = x ∧ f2 x = x := by
  rw [stepAt] at h₁ h₂
  by_cases hk : k % 2 = 0
  · rw [if_pos hk] at h₁
    rw [if_neg (by omega)] at h₂
    exact ⟨h₁, h₂⟩
  · rw [if_neg hk] at h₁
    rw [if_pos (by omega)] at h₂
    exact ⟨h₂, h₁⟩

theorem report_of_repeat (h : alternate f1 f2 model (k + 2) = alternate f1 f2 model (k + 1)) :
    FingerprintReport f1 f2 maxIters model ⟨alternate f1 f2 model (k + 2), true, k + 2⟩ := by
  obtain ⟨hlast, hother⟩ := rest_of_repeat f1 f2 model h
  constructor
  · exact Nat.le_add_left _ _
  · rfl
  · exact fun _ => hlast
  · exact fun _ hidem => stepAt_both f1 f2 (hother hidem) hlast
  · exact fun hfalse => absurd hfalse (by simp)

/-- The loop entered after `2 * n + 2` steps, of which all but the first and the last were seen to change
the model. -/
theorem fingerprintLoop_report [DecidableEq F] {fingerprint : M → F}
    (hinj : Function.Injective fingerprint) (left n : Nat) (hlimit : n + left = maxIters)
    (hseen : ∀ k, 0 < k → k + 1 < 2 * n + 2 → alternate f1 f2 model (k + 1) ≠ alternate f1 f2 model k) :
    FingerprintReport f1 f2 maxIters model
      (fingerprintLoop fingerprint f1 f2 left (fingerprint (alternate f1 f2 model (2 * n + 1)))
        (fingerprint (alternate f1 f2 model (2 * n + 2))) (alternate f1 f2 model (2 * n + 2))
        (2 * n + 2)) := by
  induction left generalizing n with
  | zero =>
    constructor
    · exact Nat.le_add_left _ _
    · rfl
    · exact fun htrue => absurd htrue (by simp [fingerprintLoop])
    · exact fun htrue => absurd htrue (by simp [fingerprintLoop])
    · exact fun _ => ⟨by simp only [fingerprintLoop]; omega, hseen⟩
  | succ left ih =>
    rw [fingerprintLoop]
    by_cases hf2 : fingerprint (alternate f1 f2 model (2 * n + 2)) =
        fingerprint (alternate f1 f2 model (2 * n + 1))
    · rw [if_pos hf2]
      exact report_of_repeat f1 f2 maxIters model (hinj hf2)
    · have hodd : f1 (alternate f1 f2 model (2 * n + 2)) = alternate f1 f2 model (2 * (n + 1) + 1) :=
        (alternate_odd f1 f2 model (n + 1)).symm
      rw [if_neg hf2, hodd]
      by_cases hf1 : fingerprint (alternate f1 f2 model (2 * (n + 1) + 1)) =
          fingerprint (alternate f1 f2 model (2 * n + 2))
      · rw [if_pos hf1]
        exact report_of_repeat f1 f2 maxIters model (k := 2 * n + 1) (hinj hf1)
      · have heven : f2 (alternate f1 f2 model (2 * (n + 1) + 1)) =
            alternate f1 f2 model (2 * (n + 1) + 2) := (alternate_even f1 f2 model (n + 1)).symm
        simp only [if_neg hf1, heven]
        apply ih (n + 1) (by omega)
        intro k hpos hk
        by_cases hlast : k = 2 * n + 2
        · subst hlast
          exact fun he => hf1 (congrArg fingerprint he)
        · by_cases hprev : k = 2 * n + 1
          · subst hprev
            exact fun he => hf2 (congrArg fingerprint he)
          · exact hseen k hpos (by omega)

theorem changedLoop_report {g1 g2 : M → Bool × M} (h1 : ∀ x, (g1 x).2 = f1 x)
    (h2 : ∀ x, (g2 x).2 = f2 x) (hflag1 : ∀ x, (g1 x).1 = true ↔ f1 x ≠ x)
    (hflag2 : ∀ x, (g2 x).1 = true ↔ f2 x ≠ x) (left n : Nat) (hlimit : n + left = maxIters)
    (hseen : ∀ k < n, alternate f1 f2 model (2 * k + 1) ≠ alternate f1 f2 model (2 * k) ∨
      alternate f1 f2 model (2 * k + 2) ≠ alternate f1 f2 model (2 * k + 1)) :
    ChangedReport f1 f2 maxIters model
      (changedLoop g1 g2 left (alternate f1 f2 model (2 * n)) (2 * n)) := by
  induction left generalizing n with
  | zero =>
    constructor
    · rfl
    · exact fun htrue => absurd htrue (by simp [changedLoop])
    · intro _
      obtain rfl : n = maxIters := by omega
      exact ⟨rfl, hseen⟩
  | succ left ih =>
    rw [changedLoop]
    simp only [h1, h2]
    rw [← alternate_odd f1 f2 model n, ← alternate_even f1 f2 model n]
    have hc1 := hflag1 (alternate f1 f2 model (2 * n))
    have hc2 := hflag2 (alternate f1 f2 model (2 * n + 1))
    rw [← alternate_odd f1 f2 model n] at hc1
    rw [← alternate_even f1 f2 model n] at hc2
    split
    · next hquiet =>
      obtain ⟨hq1, hq2⟩ : (g1 (alternate f1 f2 model (2 * n))).1 = false ∧
          (g2 (alternate f1 f2 model (2 * n + 1))).1 = false := by simpa using hquiet
      have he1 : alternate f1 f2 model (2 * n + 1) = alternate f1 f2 model (2 * n) := by
        by_contra hne
        rw [hc1.mpr hne] at hq1
        cases hq1
      have he2 : alternate f1 f2 model (2 * n + 2) = alternate f1 f2 model (2 * n + 1) := by
        by_contra hne
        rw [hc2.mpr hne] at hq2
        cases hq2
      constructor
      · rfl
      · intro _
        refine ⟨?_, ?_⟩
        · change f1 (alternate f1 f2 model (2 * n + 2)) = _
          rw [he2, he1, ← alternate_odd f1 f2 model n, he1]
        · change f2 (alternate f1 f2 model (2 * n + 2)) = _
          rw [he2, ← alternate_even f1 f2 model n, he2]
      · exact fun hfalse => absurd hfalse (by simp)
    · next hquiet =>
      apply ih (n + 1) (by omega)
      intro k hk
      by_cases hlast : k = n
      · subst hlast
        by_cases hq1 : (g1 (alternate f1 f2 model (2 * k))).1 = true
        · exact .inl (hc1.mp hq1)
        · refine .inr (hc2.mp ?_)
          simpa [Bool.not_eq_true _ ▸ hq1] using hquiet
      · exact hseen k (by omega)

end

/-- Both overloads, for steps that need not be idempotent. -/
theorem fixedPointFn_reports [DecidableEq F] {fingerprint : M → F}
    (hinj : Function.Injective fingerprint) (g1 g2 : M → Bool × M)
    (hflag1 : ∀ x, (g1 x).1 = true ↔ (g1 x).2 ≠ x) (hflag2 : ∀ x, (g2 x).1 = true ↔ (g2 x).2 ≠ x)
    (f1 f2 : M → M) (maxIters : Nat) (model : M) :
    FingerprintReport f1 f2 maxIters model (fixedPointFn fingerprint f1 f2 maxIters model) ∧
      ChangedReport (fun x => (g1 x).2) (fun x => (g2 x).2) maxIters model
        (fixedPointFnChanged g1 g2 maxIters model) := by
  constructor
  · apply fingerprintLoop_report f1 f2 maxIters model hinj maxIters 0 (Nat.zero_add _)
    intro k hpos hk
    omega
  · apply changedLoop_report _ _ maxIters model (fun _ => rfl) (fun _ => rfl) hflag1 hflag2 maxIters 0
      (Nat.zero_add _)
    intro k hk
    exact absurd hk (Nat.not_lt_zero _)

theorem fixedPointFn_reports_halving :
    Function.Injective (id : Nat → Nat) ∧
      FingerprintReport (fun x => x / 2) (fun x => x - 1) 5 9
        (fixedPointFn id (fun x => x / 2) (fun x => x - 1) 5 9) ∧
      ChangedReport (fun x => x / 2) (fun x => x - 1) 5 9
        (fixedPointFnChanged (fun x => (x / 2 != x, x / 2)) (fun x => (x - 1 != x, x - 1)) 5 9) := by
  refine ⟨Function.injective_id, ?_⟩
  exact fixedPointFn_reports Function.injective_id (fun x => (x / 2 != x, x / 2))
    (fun x => (x - 1 != x, x - 1)) (fun x => by simp) (fun x => by simp) _ _ 5 9

/-- A report as a caller would read it: converged is at rest for both steps, not converged means that
the last step changed the model. -/
def ReportsTruthfully (f1 f2 : M → M) (model : M) (o : Outcome M) : Prop :=
  (o.converged = true → f1 o.model = o.model ∧ f2 o.model = o.model) ∧
    (o.converged = false →
      0 < o.executed ∧ alternate f1 f2 model o.executed ≠ alternate f1 f2 model (o.executed - 1))

/-- Counting up and doing nothing "converge" after one step each. With no round left, the last step is
never compared. The other overload calls a round a change when only its first step made one. -/
theorem not_reportsTruthfully :
    ¬ ReportsTruthfully (fun x => x + 1) (fun x => x) 0
        (fixedPointFn (id : Nat → Nat) (fun x => x + 1) (fun x => x) 1 0) ∧
      ¬ ReportsTruthfully (fun x => x + 1) (fun x => x) 0
        (fixedPointFn (id : Nat → Nat) (fun x => x + 1) (fun x => x) 0 0) ∧
      ¬ ReportsTruthfully (fun x => x + 1) (fun x => x) 0
        (fixedPointFnChanged (fun x : Nat => (true, x + 1)) (fun x => (false, x)) 1 0) := by
  refine ⟨fun h => ?_, fun h => ?_, fun h => ?_⟩
  · exact absurd (h.1 rfl).1 (by decide)
  · exact (h.2 rfl).2 rfl
  · exact (h.2 rfl).2 rfl

end Onnxsim.Driver.FixedPoint
