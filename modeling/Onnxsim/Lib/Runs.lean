import Mathlib.Data.List.Induction

namespace Onnxsim.Lib.Runs

open List Option

variable {S A : Type}

/-- The states that steps lead to from `s`, every step taken in a state that allows it. -/
inductive Run (next : S → A → Option S) (ok : S → A → Prop) (s : S) : S → Prop
  | refl : Run next ok s s
  | tail {u v : S} {a : A} : Run next ok s u → ok u a → next u a = some v → Run next ok s v

variable {next : S → A → Option S} {ok : S → A → Prop} {s u : S}

theorem Run.induct {Inv : S → Prop} (h : Run next ok s u) (hs : Inv s)
    (hstep : ∀ u v a, Inv u → ok u a → next u a = some v → Inv v) : Inv u := by
  induction h with
  | refl => exact hs
  | tail _ hok hnext ih => exact hstep _ _ _ ih hok hnext

/-- The run of a trace, each step of which is allowed where the trace has led so far. -/
theorem Run.of_foldlM {as : List A} (hok : ∀ k u a, (as.take k).foldlM next s = some u → as[k]? = some a → ok u a)
    (h : as.foldlM next s = some u) : Run next ok s u := by
  induction as using List.reverseRecOn generalizing u with
  | nil =>
    cases h
    exact .refl
  | append_singleton as a ih =>
    rw [List.foldlM_append, bind_eq_bind, bind_eq_some_iff] at h
    obtain ⟨v, hv, h⟩ := h
    rw [foldlM_cons, bind_eq_bind, bind_eq_some_iff] at h
    obtain ⟨w, hw, h⟩ := h
    cases h
    have hpre : Run next ok s v := by
      refine ih (fun k u b hu hb => ?_) hv
      have hk : k < as.length := (List.getElem?_eq_some_iff.mp hb).1
      refine hok k u b ?_ ?_
      · rwa [take_append_of_le_length (Nat.le_of_lt hk)]
      · rwa [getElem?_append_left hk]
    refine hpre.tail (hok as.length v a ?_ ?_) hw
    · rwa [take_left']
      rfl
    · rw [getElem?_append_right (Nat.le_refl _), Nat.sub_self]
      rfl

variable {L T : Type} {step : L → S → S → Prop} {step' : L → T → T → Prop} {allowed : L → S → Prop}
  {R : S → T → Prop}

/-- The steps that carry a list of labels, one after the other. -/
inductive Trace (step : L → S → S → Prop) : List L → S → S → Prop
  | nil {s : S} : Trace step [] s s
  | cons {l : L} {ls : List L} {s u v : S} : step l s u → Trace step ls u v → Trace step (l :: ls) s v

/-- Two systems that take steps of the same labels stay related, if every allowed step keeps them so. -/
theorem Trace.simulates {ls : List L} {s v : S} {t w : T}
    (hstep : ∀ l s s' t t', allowed l s → step l s s' → step' l t t' → R s t → R s' t')
    (h : Trace (fun l s s' => allowed l s ∧ step l s s') ls s v) (h' : Trace step' ls t w) (hR : R s t) : R v w := by
  induction h generalizing t with
  | nil =>
    cases h'
    exact hR
  | cons hl _ ih =>
    cases h' with
    | cons hl' hls' => exact ih hls' (hstep _ _ _ _ _ hl.1 hl.2 hl' hR)

end Onnxsim.Lib.Runs
