import Onnxsim.Crown.BranchAndBound
import Onnxsim.Crown.Keeping

namespace Onnxsim.Crown.Cells

open List Lib.Dicts Lib.Results Overflow.Arrays Boxes Analyzers
  BranchAndBound Frames Keeping

section

variable {𝕜 ρ : Type} [Field 𝕜] [LinearOrder 𝕜] (net : Network 𝕜) (m : Meaning 𝕜 ρ) (s : Settings 𝕜)

/-- A point of a cell: in its input sub-box and on the branches it forces. -/
def InCell (ranges : Ranges 𝕜) (forced : Forced) (p : Point 𝕜) : Prop :=
  (∀ n ∈ net.inputs, ∀ b, ranges n = some b → Encloses b (p n)) ∧ Satisfies net m forced p

/-- A region has a bound of every output, and its violation is the greatest of theirs. -/
structure Measured (r : Region 𝕜) : Prop where
  names : ∀ n ∈ s.names, ∃ b, r.vals.get? n = some b
  violation : ∀ target, s.target = some target → ∀ n b, r.vals.get? n = some b →
    ∃ t l, target n = some t ∧ violations t b = some l ∧ finiteMax l ≤ r.violation

/-- A region that is right at the points of `P`. -/
structure Right (P : Point 𝕜 → Prop) (h : Heap 𝕜 ρ) (r : Region 𝕜) : Prop where
  grounded : Grounded net m P r.an h
  vals : ∀ p, P p → ∀ n b, r.vals.get? n = some b → Encloses b (m.value p n)
  measured : Measured s r
  below : Below r.an h

/-- A child of a split, for the points of `P` that lie in its cell. -/
structure Kid (P : Point 𝕜 → Prop) (h h' : Heap 𝕜 ρ) (c : Child 𝕜) : Prop where
  none : c.region = none → ∀ p, P p → ¬ InCell net m c.ranges c.forced p
  some : ∀ r, c.region = some r → r.ranges = c.ranges ∧ r.forced = c.forced ∧ Fresh r.an h h' ∧
    Right net m s (fun p => P p ∧ InCell net m c.ranges c.forced p) h' r

end

variable {𝕜 ρ : Type} [Field 𝕜] [LinearOrder 𝕜] {net : Network 𝕜} {m : Meaning 𝕜 ρ} {s : Settings 𝕜}
  {P Q : Point 𝕜 → Prop} {S : Nat → Prop} {h h' h'' : Heap 𝕜 ρ} {an : Analyzer 𝕜} {r : Region 𝕜} {c : Child 𝕜}

theorem right_later (hr : Right net m s P h r) (hw : Writes S h h') (hout : ∀ i, At r.an i → ¬ S i) :
    Right net m s P h' r :=
  ⟨grounded_later hr.grounded hr.below hw hout, hr.vals, hr.measured, below_later hr.below hw⟩

theorem right_kept (hr : Right net m s P h r) (hk : Kept net m P r.an h h') : Right net m s P h' r :=
  ⟨grounded_kept hr.grounded hk, hr.vals, hr.measured, below_later hr.below hk.writes⟩

theorem right_mono (hr : Right net m s P h r) (hQ : ∀ p, Q p → P p) : Right net m s Q h r :=
  ⟨fun p hp => hr.grounded p (hQ p hp), fun p hp => hr.vals p (hQ p hp), hr.measured, hr.below⟩

theorem kid_later (hc : Kid net m s P h h' c) (hw : Writes (fun _ => False) h' h'') : Kid net m s P h h'' c := by
  refine ⟨hc.none, fun r hr => ?_⟩
  obtain ⟨hranges, hforced, hfresh, hright⟩ := hc.some r hr
  exact ⟨hranges, hforced, ⟨below_later hfresh.1 hw, hfresh.2⟩, right_later hright hw fun _ _ => id⟩

theorem kid_earlier (hc : Kid net m s P h' h'' c) (hle : h.next ≤ h'.next) : Kid net m s P h h'' c := by
  refine ⟨hc.none, fun r hr => ?_⟩
  obtain ⟨hranges, hforced, hfresh, hright⟩ := hc.some r hr
  exact ⟨hranges, hforced, fresh_mono hfresh hle, hright⟩

variable {p : Point 𝕜}

theorem satisfies_nil : Satisfies net m [] p := by
  intro c hc
  cases hc

theorem satisfies_append {forced forced' : Forced} :
    Satisfies net m (forced ++ forced') p ↔ Satisfies net m forced p ∧ Satisfies net m forced' p := by
  constructor
  · intro hs
    exact ⟨fun c hc => hs c (mem_append_left _ hc), fun c hc => hs c (mem_append_right _ hc)⟩
  · rintro ⟨hl, hr⟩ c hc
    exact (mem_append.mp hc).elim (hl c) (hr c)

variable {ranges : Ranges 𝕜} {x : 𝕜}

theorem inCell_of_branch {forced : Forced} {b : Nat × Nat × Bool} (hp : InCell net m ranges (forced ++ [b]) p) :
    InCell net m ranges forced p ∧ Satisfies net m [b] p :=
  ⟨⟨hp.1, (satisfies_append.mp hp.2).1⟩, (satisfies_append.mp hp.2).2⟩

theorem violationMaxima_spec {target : Ranges 𝕜} (ht : s.target = some target) {l : List (String × Range 𝕜)} {ms : List 𝕜}
    (hrun : violationMaxima s l h = .ok (ms, h')) :
    h' = h ∧ ∀ e ∈ l, ∃ t x, target e.1 = some t ∧ violations t e.2 = some x ∧ finiteMax x ∈ ms := by
  induction l generalizing h ms with
  | nil =>
    cases hrun
    exact ⟨rfl, nofun⟩
  | cons e l ih =>
    obtain ⟨x, h₁, hx, hrun₁⟩ := stateT_bind_eq_ok hrun
    rw [violationOf, ht] at hx
    obtain ⟨t, h₂, htarget, hx'⟩ := stateT_bind_eq_ok hx
    obtain ⟨htarget', rfl⟩ := orKeyError_eq_ok htarget
    obtain ⟨hviol, rfl⟩ := orBroadcastError_eq_ok hx'
    obtain ⟨ms', h₃, hms, hrun₃⟩ := stateT_bind_eq_ok hrun₁
    cases hrun₃
    obtain ⟨hheap, hrest⟩ := ih hms
    refine ⟨hheap, fun e' he' => ?_⟩
    rcases mem_cons.mp he' with rfl | he'
    · exact ⟨t, x, htarget', hviol, mem_cons_self⟩
    · obtain ⟨t', x', ht', hx', hmem⟩ := hrest e' he'
      exact ⟨t', x', ht', hx', mem_cons_of_mem _ hmem⟩

omit [Field 𝕜] in
theorem maxOf_eq_ok {l : List 𝕜} (hrun : maxOf l h = .ok (x, h')) : h' = h ∧ ∀ y ∈ l, y ≤ x := by
  rw [maxOf] at hrun
  cases hmax : l.max? with
  | none =>
    rw [hmax] at hrun
    cases hrun
  | some z =>
    rw [hmax] at hrun
    cases hrun
    exact ⟨rfl, (max?_eq_some_iff.mp hmax).2⟩

theorem violation_spec {vals : Dict String (Range 𝕜)} (hrun : violation s vals h = .ok (x, h')) :
    h' = h ∧ ∀ target, s.target = some target → ∀ n b, vals.get? n = some b →
      ∃ t l, target n = some t ∧ violations t b = some l ∧ finiteMax l ≤ x := by
  rw [violation] at hrun
  cases ht : s.target with
  | none =>
    rw [ht] at hrun
    cases hrun
    exact ⟨rfl, nofun⟩
  | some target =>
    rw [ht] at hrun
    obtain ⟨maxima, h₁, hmaxima, hmax⟩ := stateT_bind_eq_ok hrun
    obtain ⟨rfl, hall⟩ := violationMaxima_spec ht hmaxima
    obtain ⟨rfl, hle⟩ := maxOf_eq_ok hmax
    refine ⟨rfl, fun target' ht' n b hb => ?_⟩
    cases ht'
    obtain ⟨t, l, htarget, hl, hmem⟩ := hall (n, b) (Dict.get?_eq_some_iff.mp hb)
    exact ⟨t, l, htarget, hl, hle _ hmem⟩

variable [IsStrictOrderedRing 𝕜] {engine : Engine 𝕜 ρ} {forced : Forced} (hsound : Sound engine net m)
  (hP : ∀ p, P p → m.domain p) (hforced : ∀ p, P p → Satisfies net m forced p) (hg : Grounded net m P an h)

include hsound hP hforced hg

theorem evaluateOne_spec {name : String} {b : Range 𝕜}
    (hrun : evaluateOne engine net s an forced name h = .ok (b, h')) :
    Kept net m P an h h' ∧ ∀ p, P p → Encloses b (m.value p name) := by
  obtain ⟨b₁, h₁, hfinal, hrun₁⟩ := stateT_bind_eq_ok hrun
  obtain ⟨hkept, henc⟩ := final_spec hsound hP hfinal fun p hp => (hg p hp).2
  have henc₁ : ∀ p, P p → Encloses b₁ (m.value p name) := fun p hp => henc p hp (hg p hp).1
  split at hrun₁
  · cases hrun₁
    exact ⟨hkept, henc₁⟩
  obtain ⟨v, h₂, hv, hrun₂⟩ := stateT_bind_eq_ok hrun₁
  obtain ⟨rfl, rfl⟩ := view_eq_ok hv
  obtain ⟨u, h₃, hall, hrun₃⟩ := stateT_bind_eq_ok hrun₂
  obtain ⟨hkept', -⟩ := relaxAll_spec (P := P) hsound hall
  obtain ⟨v, h₄, hv', hrun₄⟩ := stateT_bind_eq_ok hrun₃
  obtain ⟨rfl, rfl⟩ := view_eq_ok hv'
  have hkept'' := hkept.trans hkept'
  cases halpha : engine.alpha (viewOf an h₄) name (if s.leafMethod = .beta then forced else []) with
  | none =>
    rw [halpha] at hrun₄
    cases hrun₄
    exact ⟨hkept'', henc₁⟩
  | some a =>
    rw [halpha] at hrun₄
    obtain ⟨c, h₅, hc, hrun₅⟩ := stateT_bind_eq_ok hrun₄
    obtain ⟨hfinish, rfl⟩ := orBroadcastError_eq_ok hc
    obtain ⟨hmeet, rfl⟩ := orBroadcastError_eq_ok hrun₅
    refine ⟨hkept'', fun p hp => ?_⟩
    have hsat : Satisfies net m (if s.leafMethod = .beta then forced else []) p := by
      split
      · exact hforced p hp
      · intro c hc
        cases hc
    have ha := hsound.alpha _ p (hP p hp) (hkept''.holds p hp (hg p hp).1) _ hsat name a halpha
    exact encloses_meet hmeet (henc₁ p hp) (encloses_finish hfinish ha (henc₁ p hp))

theorem evaluate_spec {names : List String} {out out' : Dict String (Range 𝕜)}
    (hrun : evaluate engine net s an forced names out h = .ok (out', h'))
    (hout : ∀ p, P p → ∀ n b, out.get? n = some b → Encloses b (m.value p n)) :
    Kept net m P an h h' ∧ (∀ p, P p → ∀ n b, out'.get? n = some b → Encloses b (m.value p n)) ∧
      ∀ n, n ∈ names ∨ (∃ b, out.get? n = some b) → ∃ b, out'.get? n = some b := by
  induction names generalizing out h with
  | nil =>
    cases hrun
    exact ⟨.refl an _, hout, fun n hn => hn.resolve_left not_mem_nil⟩
  | cons name names ih =>
    obtain ⟨b₁, h₁, hone, hrest⟩ := stateT_bind_eq_ok hrun
    obtain ⟨hkept, henc⟩ := evaluateOne_spec hsound hP hforced hg hone
    have hset : ∀ p, P p → ∀ n b, (out.set name b₁).get? n = some b → Encloses b (m.value p n) := by
      intro p hp n b hb
      rw [Dict.get?_set] at hb
      split at hb
      · next hn =>
        cases hb
        rw [hn]
        exact henc p hp
      · exact hout p hp n b hb
    obtain ⟨hkept', hvals, hkeys⟩ := ih (grounded_kept hg hkept) hrest hset
    refine ⟨hkept.trans hkept', hvals, fun n hn => hkeys n ?_⟩
    by_cases hname : n = name
    · exact .inr ⟨b₁, by rw [Dict.get?_set, if_pos hname]⟩
    · cases hn with
      | inl hmem => exact .inl ((mem_cons.mp hmem).resolve_left hname)
      | inr hb =>
        obtain ⟨b, hb⟩ := hb
        exact .inr ⟨b, by rw [Dict.get?_set, if_neg hname, hb]⟩

theorem region_spec (hbelow : Below an h) {r : Region 𝕜} (hrun : region engine net s an ranges forced h = .ok (r, h')) :
    Kept net m P an h h' ∧ r.an = an ∧ r.ranges = ranges ∧ r.forced = forced ∧ Right net m s P h' r := by
  obtain ⟨vals, h₁, heval, hrun₁⟩ := stateT_bind_eq_ok hrun
  obtain ⟨hkept, hvals, hkeys⟩ := evaluate_spec hsound hP hforced hg heval nofun
  obtain ⟨width, h₂, hwidth, hrun₂⟩ := stateT_bind_eq_ok hrun₁
  obtain ⟨rfl, -⟩ := maxOf_eq_ok hwidth
  obtain ⟨viol, h₃, hviol, hrun₃⟩ := stateT_bind_eq_ok hrun₂
  obtain ⟨rfl, hmax⟩ := violation_spec hviol
  cases hrun₃
  exact ⟨hkept, rfl, rfl, rfl, grounded_kept hg hkept, hvals, ⟨fun n hn => hkeys n (.inl hn), hmax⟩,
    below_later hbelow hkept.writes⟩

omit hsound hP hforced hg

omit [IsStrictOrderedRing 𝕜] in
theorem restrictAll_spec (hforced : ∀ p, P p → Satisfies net m forced p) {ok : Bool}
    (hrun : restrictAll net an forced h = .ok (ok, h')) :
    Kept net m P an h h' ∧ (ok = false → Grounded net m P an h → ∀ p, ¬ P p) := by
  induction forced generalizing h with
  | nil =>
    cases hrun
    exact ⟨.refl an _, nofun⟩
  | cons c forced ih =>
    obtain ⟨ok₁, h₁, hone, hrest⟩ := stateT_bind_eq_ok hrun
    have hsplit := fun p hp => (@satisfies_append _ _ _ _ _ _ p [c] forced).mp (hforced p hp)
    obtain ⟨hkept, hfalse⟩ := restrict_spec hone fun p hp => (hsplit p hp).1
    cases ok₁ with
    | false =>
      cases hrest
      exact ⟨hkept, fun _ hg p hp => hfalse rfl p hp (hg p hp).1⟩
    | true =>
      obtain ⟨hkept', hfalse'⟩ := ih (fun p hp => (hsplit p hp).2) hrest
      exact ⟨hkept.trans hkept', fun hok hg => hfalse' hok (grounded_kept hg hkept)⟩

theorem refineAgain_kept (hsound : Sound engine net m) (hP : ∀ p, P p → m.domain p) {u : Unit}
    (hrun : refineAgain engine net an forced h = .ok (u, h')) : Kept net m P an h h' := by
  rw [refineAgain] at hrun
  split at hrun
  · cases hrun
    exact .refl an _
  · exact refine_kept hsound hP hrun

theorem build_spec (hsound : Sound engine net m)
    (hP : ∀ p, P p → m.domain p ∧ InBox net ranges p ∧ Satisfies net m forced p) {o : Option (Analyzer 𝕜)}
    (hrun : build engine net ranges forced h = .ok (o, h')) :
    Writes (fun _ => False) h h' ∧ (o = none → ∀ p, ¬ P p) ∧
      ∀ an, o = some an → Fresh an h h' ∧ Grounded net m P an h' ∧
        ∀ n, (engine.propagate ranges n).isSome → (h'.boxes an.ib n).isSome := by
  obtain ⟨an, h₁, hnew, hrun₁⟩ := stateT_bind_eq_ok hrun
  obtain ⟨hwrites, hfresh, hview, hflags, hintervals⟩ := allocate_spec hnew
  have hg₁ : Grounded net m P an h₁ := by
    intro p hp
    have hprop := hsound.propagate ranges p (hP p hp).1 (hP p hp).2.1
    rw [hview, hintervals]
    exact ⟨⟨hprop, nofun⟩, hprop⟩
  obtain ⟨u₂, h₂, hrefine, hrun₂⟩ := stateT_bind_eq_ok hrun₁
  have hkept₂ := refine_kept hsound (fun p hp => (hP p hp).1) hrefine
  obtain ⟨ok, h₃, hall, hrun₃⟩ := stateT_bind_eq_ok hrun₂
  obtain ⟨hkept₃, hfalse⟩ := restrictAll_spec (fun p hp => (hP p hp).2.2) hall
  have hg₂ := grounded_kept hg₁ hkept₂
  have hk₃ := hkept₂.trans hkept₃
  cases ok with
  | false =>
    cases hrun₃
    exact ⟨writes_fresh hwrites hfresh hk₃.writes, fun _ => hfalse rfl hg₂, nofun⟩
  | true =>
    obtain ⟨u₄, h₄, hagain, hrun₄⟩ := stateT_bind_eq_ok hrun₃
    have hk₄ : Kept net m P an h₁ h₄ := hk₃.trans (refineAgain_kept hsound (fun p hp => (hP p hp).1) hagain)
    obtain ⟨f, h₅, hf, hrun₅⟩ := stateT_bind_eq_ok hrun₄
    obtain ⟨rfl, rfl⟩ := flagsOf_eq_ok hf
    cases hrun₅
    refine ⟨writes_fresh hwrites hfresh hk₄.writes, fun hnone p hp => ?_, fun an' han => ?_⟩
    · have hinf : (h'.flags an.flags).infeasible = true := by
        by_contra hfeasible
        rw [if_neg hfeasible] at hnone
        cases hnone
      have hinf₁ := hk₄.feasible p hp (hg₁ p hp).1 hinf
      rw [hflags] at hinf₁
      cases hinf₁
    · split at han
      · cases han
      · cases han
        refine ⟨⟨below_later hfresh.1 hk₄.writes, hfresh.2⟩, grounded_kept hg₁ hk₄, fun n hn => hk₄.boxed n ?_⟩
        have hboxes : h₁.boxes an.ib = engine.propagate ranges := congrArg View.boxes hview
        rwa [hboxes]

end Onnxsim.Crown.Cells

namespace Onnxsim.Crown.Splits

open List Lib.Dicts Lib.Results Overflow.Arrays Boxes Analyzers
  BranchAndBound Frames Keeping Cells

variable {name : String} {idx j : Nat}

section

variable {𝕜 ρ : Type} [Field 𝕜] [LinearOrder 𝕜] {engine : Engine 𝕜 ρ} {net : Network 𝕜} {m : Meaning 𝕜 ρ}
  {s : Settings 𝕜} {P : Point 𝕜 → Prop} {an : Analyzer 𝕜} {r : Region 𝕜} {h h' : Heap 𝕜 ρ}

theorem violationOf_heap {b : Range 𝕜} {l : List (Option 𝕜)} (hrun : violationOf s name b h = .ok (l, h')) : h' = h := by
  rw [violationOf] at hrun
  cases htarget : s.target with
  | none =>
    rw [htarget] at hrun
    cases hrun
    rfl
  | some target =>
    rw [htarget] at hrun
    obtain ⟨t, h₁, ht, hrun₁⟩ := stateT_bind_eq_ok hrun
    obtain ⟨-, rfl⟩ := orKeyError_eq_ok ht
    exact (orBroadcastError_eq_ok hrun₁).2

theorem worst_heap {l : List (String × Range 𝕜)} {best : Option (𝕜 × String × Nat)} {w : Option (String × Nat)}
    (hrun : worst s r l best h = .ok (w, h')) : h' = h := by
  induction l generalizing best h with
  | nil =>
    cases hrun
    rfl
  | cons e l ih =>
    obtain ⟨name, b⟩ := e
    rw [worst] at hrun
    split at hrun
    · exact ih hrun
    · obtain ⟨x, h₁, hx, hrun₁⟩ := stateT_bind_eq_ok hrun
      have hheap : h₁ = h := by
        rw [excesses] at hx
        split at hx
        · cases hx
          rfl
        · exact violationOf_heap hx
      subst hheap
      cases hmax : argmax (x.map fun y => y.getD huge) with
      | none =>
        rw [hmax] at hrun₁
        cases hrun₁
      | some e =>
        rw [hmax] at hrun₁
        exact ih hrun₁

theorem sensitivities_kept (hsound : Sound engine net m) {k : Nat}
    {sens : (String → Option (List 𝕜)) × List (Nat × List 𝕜)}
    (hrun : sensitivities engine net an name k h = .ok (sens, h')) : Kept net m P an h h' := by
  obtain ⟨v, h₁, hv, hrun₁⟩ := stateT_bind_eq_ok hrun
  obtain ⟨rfl, rfl⟩ := view_eq_ok hv
  obtain ⟨u, h₂, hall, hrun₂⟩ := stateT_bind_eq_ok hrun₁
  obtain ⟨v, h₃, hv', hrun₃⟩ := stateT_bind_eq_ok hrun₂
  obtain ⟨rfl, rfl⟩ := view_eq_ok hv'
  cases hrun₃
  exact (relaxAll_spec hsound hall).1

theorem chooseNeuron_kept (hsound : Sound engine net m) {l : List (Nat × List 𝕜)} {best o : Option (𝕜 × Nat × Nat)}
    (hrun : chooseNeuron engine net an l best h = .ok (o, h')) : Kept net m P an h h' := by
  induction l generalizing best h with
  | nil =>
    cases hrun
    exact .refl an _
  | cons e l ih =>
    obtain ⟨idx, infl⟩ := e
    obtain ⟨x, h₁, hx, hrun₁⟩ := stateT_bind_eq_ok hrun
    have hkept := (relax_spec (P := P) hsound hx).1
    cases hmax : argmax (scores engine infl x) with
    | none =>
      rw [hmax] at hrun₁
      cases hrun₁
    | some e =>
      rw [hmax] at hrun₁
      exact hkept.trans (ih hrun₁)

theorem inputInfluence_kept (hsound : Sound engine net m) {infl : String → Option (List 𝕜)}
    (hrun : inputInfluence engine net s r h = .ok (infl, h')) : Kept net m P r.an h h' := by
  obtain ⟨w, h₁, hw, hrun₁⟩ := stateT_bind_eq_ok hrun
  cases worst_heap hw
  cases w with
  | none =>
    cases hrun₁
    exact .refl r.an _
  | some e =>
    obtain ⟨sens, h₂, hsens, hrun₂⟩ := stateT_bind_eq_ok hrun₁
    cases hrun₂
    exact sensitivities_kept hsound hsens

end

section

variable {𝕜 ρ : Type} [Field 𝕜] [LinearOrder 𝕜] {net : Network 𝕜} {m : Meaning 𝕜 ρ} {s : Settings 𝕜}
  {P : Point 𝕜 → Prop} {r : Region 𝕜} {c₁ c₂ : Child 𝕜} {h h₁ h₂ : Heap 𝕜 ρ}

variable (net m s P) in
/-- The children of a split: right, apart from each other, and together all of the cell that was split. -/
structure Children (h h' : Heap 𝕜 ρ) (r : Region 𝕜) (cs : List (Child 𝕜)) : Prop where
  kids : ∀ c ∈ cs, Kid net m s P h h' c
  apart : cs.Pairwise fun c d => ∀ a b, c.region = some a → d.region = some b → Apart a.an b.an
  covers : ∀ p, P p → InCell net m r.ranges r.forced p → ∃ c ∈ cs, InCell net m c.ranges c.forced p
  boxed : ∀ c ∈ cs, ∀ n, c.ranges n = none → r.ranges n = none

theorem children_pair (hk₁ : Kid net m s P h h₁ c₁) (hk₂ : Kid net m s P h₁ h₂ c₂) (hw₁ : Writes (fun _ => False) h h₁)
    (hw₂ : Writes (fun _ => False) h₁ h₂)
    (hcovers : ∀ p, P p → InCell net m r.ranges r.forced p →
      InCell net m c₁.ranges c₁.forced p ∨ InCell net m c₂.ranges c₂.forced p)
    (hboxed₁ : ∀ n, c₁.ranges n = none → r.ranges n = none) (hboxed₂ : ∀ n, c₂.ranges n = none → r.ranges n = none) :
    Children net m s P h h₂ r [c₁, c₂] := by
  constructor
  · intro c hc
    rcases mem_cons.mp hc with rfl | hc
    · exact kid_later hk₁ hw₂
    · cases mem_singleton.mp hc
      exact kid_earlier hk₂ hw₁.next
  · apply pairwise_pair.mpr
    -- the first child was there before the second
    intro a b ha hb i hia hib
    have hlt : i < h₁.next := (hk₁.some a ha).2.2.1.1 i hia
    exact absurd hlt (not_lt.mpr ((hk₂.some b hb).2.2.1.2 i hib))
  · intro p hp hcell
    rcases hcovers p hp hcell with h | h
    · exact ⟨c₁, mem_cons_self, h⟩
    · exact ⟨c₂, mem_cons_of_mem _ mem_cons_self, h⟩
  · intro c hc
    rcases mem_cons.mp hc with rfl | hc
    · exact hboxed₁
    · cases mem_singleton.mp hc
      exact hboxed₂

variable (net m s P) in
/-- What a try to split a region leaves: only its own analyser is written, and it stays right. -/
structure Tried (h h' : Heap 𝕜 ρ) (r : Region 𝕜) (o : Option (List (Child 𝕜))) : Prop where
  writes : Writes (At r.an) h h'
  right : Right net m s (fun p => P p ∧ InCell net m r.ranges r.forced p) h' r
  children : ∀ cs, o = some cs → Children net m s P h h' r cs

variable {p : Point 𝕜} {forced : Forced} {c : Range 𝕜}

theorem inCell_branch (hp : InCell net m r.ranges forced p) :
    InCell net m r.ranges (forced ++ [(idx, j, true)]) p ∨ InCell net m r.ranges (forced ++ [(idx, j, false)]) p := by
  by_cases hsat : Satisfies net m [(idx, j, true)] p
  · exact .inl ⟨hp.1, satisfies_append.mpr ⟨hp.2, hsat⟩⟩
  · refine .inr ⟨hp.1, satisfies_append.mpr ⟨hp.2, fun c hc node hnode x hx => ?_⟩⟩
    cases mem_singleton.mp hc
    by_contra hpos
    apply hsat
    intro c hc node' hnode' x' hx'
    cases mem_singleton.mp hc
    cases hnode.symm.trans hnode'
    cases hx.symm.trans hx'
    exact (not_le.mp hpos).le

theorem encloses_halves {b : Range 𝕜} {t : NDArray 𝕜} (hb : Encloses b t) (j : Nat) :
    Encloses (halves b j).1 t ∨ Encloses (halves b j).2 t := by
  cases hv : t.data[j]? with
  | none => exact .inl (encloses_setHi hb fun v hv' => by rw [hv] at hv'; cases hv')
  | some v =>
    rcases le_total (fin v) (middle (b.1.data.getD j ⊥) (b.2.data.getD j ⊥)) with hle | hle
    · refine .inl (encloses_setHi hb fun w hw => ?_)
      cases hv.symm.trans hw
      exact hle
    · refine .inr (encloses_setLo hb fun w hw => ?_)
      cases hv.symm.trans hw
      exact hle

theorem inCell_update {b : Range 𝕜} (hb : r.ranges name = some b) (hp : InCell net m r.ranges r.forced p)
    (henc : Encloses b (p name) → Encloses c (p name)) :
    InCell net m (Function.update r.ranges name (some c)) r.forced p := by
  refine ⟨fun n hn d hd => ?_, hp.2⟩
  by_cases hname : n = name
  · subst hname
    rw [Function.update_self] at hd
    cases hd
    exact henc (hp.1 n hn b hb)
  · rw [Function.update_of_ne hname] at hd
    exact hp.1 n hn d hd

omit [Field 𝕜] [LinearOrder 𝕜] in
theorem ranges_of_update {n : String} (h : Function.update r.ranges name (some c) n = none) : r.ranges n = none := by
  by_cases hname : n = name
  · rw [hname, Function.update_self] at h
    cases h
  · rwa [Function.update_of_ne hname] at h

theorem inCell_halves {b : Range 𝕜} (hb : r.ranges name = some b) (j : Nat) (hp : InCell net m r.ranges r.forced p) :
    InCell net m (Function.update r.ranges name (some (halves b j).1)) r.forced p ∨
      InCell net m (Function.update r.ranges name (some (halves b j).2)) r.forced p := by
  by_cases hname : name ∈ net.inputs
  · rcases encloses_halves (hp.1 name hname b hb) j with henc | henc
    · exact .inl (inCell_update hb hp fun _ => henc)
    · exact .inr (inCell_update hb hp fun _ => henc)
  · refine .inl ⟨fun n hn d hd => ?_, hp.2⟩
    rw [Function.update_of_ne fun he : n = name => hname (he ▸ hn)] at hd
    exact hp.1 n hn d hd

theorem children_earlier {cs : List (Child 𝕜)} (hcs : Children net m s P h₁ h₂ r cs) (hle : h.next ≤ h₁.next) :
    Children net m s P h h₂ r cs :=
  ⟨fun c hc => kid_earlier (hcs.kids c hc) hle, hcs.apart, hcs.covers, hcs.boxed⟩

/-- The sub-box of a cell is a box for the analyser: where the cell has no box of an input, the declared one holds. -/
theorem inBox_of_inCell {ranges : Ranges 𝕜} (hp : InCell net m ranges forced p)
    (hdecl : ∀ n ∈ net.inputs, ranges n = none → ∀ a, net.annotated n = some a → InRange a (p n)) :
    InBox net ranges p := by
  intro n hn a ha
  cases hrange : ranges n with
  | none =>
    rw [hrange] at ha
    exact hdecl n hn hrange a ha
  | some b =>
    rw [hrange] at ha
    cases ha
    exact inRange_of_encloses (hp.1 n hn _ hrange)

end

variable {𝕜 ρ : Type} [Field 𝕜] [LinearOrder 𝕜] [IsStrictOrderedRing 𝕜] {engine : Engine 𝕜 ρ} {net : Network 𝕜}
  {m : Meaning 𝕜 ρ} {s : Settings 𝕜} {P : Point 𝕜 → Prop} {an : Analyzer 𝕜} {r : Region 𝕜} {c : Child 𝕜} {h h' : Heap 𝕜 ρ}

theorem branch_spec (hsound : Sound engine net m) (hP : ∀ p, P p → m.domain p)
    (hr : Right net m s (fun p => P p ∧ InCell net m r.ranges r.forced p) h r) {sign : Bool}
    (hrun : branch engine net s r idx j sign h = .ok (c, h')) :
    Writes (fun _ => False) h h' ∧ c.ranges = r.ranges ∧ c.forced = r.forced ++ [(idx, j, sign)] ∧ Kid net m s P h h' c := by
  let Q : Point 𝕜 → Prop := fun p => P p ∧ InCell net m r.ranges (r.forced ++ [(idx, j, sign)]) p
  obtain ⟨an, h₁, hclone, hrun₁⟩ := stateT_bind_eq_ok hrun
  obtain ⟨hwrites, hfresh, hview, hflags, hintervals⟩ := clone_spec hclone
  have hg : Grounded net m Q an h₁ := by
    intro p hp
    rw [hview, hintervals]
    exact hr.grounded p ⟨hp.1, (inCell_of_branch hp.2).1⟩
  obtain ⟨ok, h₂, hrestrict, hrun₂⟩ := stateT_bind_eq_ok hrun₁
  obtain ⟨hkept, hfalse⟩ := restrict_spec (P := Q) hrestrict fun p hp => (inCell_of_branch hp.2).2
  cases ok with
  | false =>
    cases hrun₂
    refine ⟨writes_fresh hwrites hfresh hkept.writes, rfl, rfl, fun _ p hp hcell => ?_, nofun⟩
    exact hfalse rfl p ⟨hp, hcell⟩ (hg p ⟨hp, hcell⟩).1
  | true =>
    obtain ⟨u₃, h₃, hrefine, hrun₃⟩ := stateT_bind_eq_ok hrun₂
    have hkept₃ := hkept.trans (refine_kept hsound (fun p hp => hP p hp.1) hrefine)
    obtain ⟨f, h₄, hf, hrun₄⟩ := stateT_bind_eq_ok hrun₃
    obtain ⟨rfl, rfl⟩ := flagsOf_eq_ok hf
    split at hrun₄
    · next hinf =>
      cases hrun₄
      refine ⟨writes_fresh hwrites hfresh hkept₃.writes, rfl, rfl, fun _ p hp hcell => ?_, nofun⟩
      have hinf₁ := hkept₃.feasible p ⟨hp, hcell⟩ (hg p ⟨hp, hcell⟩).1 hinf
      rw [hflags] at hinf₁
      cases hinf₁
    · obtain ⟨q, h₅, hregion, hrun₅⟩ := stateT_bind_eq_ok hrun₄
      cases hrun₅
      obtain ⟨hkept₅, rfl, hranges, hforced, hright⟩ := region_spec (s := s) hsound (fun p hp => hP p hp.1)
        (fun p hp => hp.2.2) (grounded_kept hg hkept₃) (below_later hfresh.1 hkept₃.writes) hregion
      have hall := hkept₃.trans hkept₅
      refine ⟨writes_fresh hwrites hfresh hall.writes, rfl, rfl, nofun, fun q' hq' => ?_⟩
      cases hq'
      exact ⟨hranges, hforced, ⟨below_later hfresh.1 hall.writes, hfresh.2⟩, hright⟩

theorem half_spec (hsound : Sound engine net m) (hP : ∀ p, P p → m.domain p)
    (hdecl : ∀ n ∈ net.inputs, r.ranges n = none → ∀ a, net.annotated n = some a → ∀ p, P p → InRange a (p n))
    {b : Range 𝕜} (hrun : half engine net s r name b h = .ok (c, h')) :
    Writes (fun _ => False) h h' ∧ c.ranges = Function.update r.ranges name (some b) ∧ c.forced = r.forced ∧
      Kid net m s P h h' c := by
  let Q : Point 𝕜 → Prop := fun p => P p ∧ InCell net m (Function.update r.ranges name (some b)) r.forced p
  have hQ : ∀ p, Q p → m.domain p ∧ InBox net (Function.update r.ranges name (some b)) p ∧ Satisfies net m r.forced p := by
    intro p hp
    refine ⟨hP p hp.1, inBox_of_inCell hp.2 fun n hn hnone a ha => ?_, hp.2.2⟩
    by_cases hname : n = name
    · rw [hname, Function.update_self] at hnone
      cases hnone
    · rw [Function.update_of_ne hname] at hnone
      exact hdecl n hn hnone a ha p hp.1
  obtain ⟨o, h₁, hbuild, hrun₁⟩ := stateT_bind_eq_ok hrun
  obtain ⟨hwrites, hnone, hsome⟩ := build_spec hsound hQ hbuild
  cases o with
  | none =>
    cases hrun₁
    exact ⟨hwrites, rfl, rfl, fun _ p hp hcell => hnone rfl p ⟨hp, hcell⟩, nofun⟩
  | some an =>
    obtain ⟨hfresh, hg, -⟩ := hsome an rfl
    obtain ⟨q, h₂, hregion, hrun₂⟩ := stateT_bind_eq_ok hrun₁
    cases hrun₂
    obtain ⟨hkept, rfl, hranges, hforced, hright⟩ := region_spec (s := s) hsound (fun p hp => hP p hp.1)
      (fun p hp => hp.2.2) hg hfresh.1 hregion
    refine ⟨writes_fresh hwrites hfresh hkept.writes, rfl, rfl, nofun, fun q' hq' => ?_⟩
    cases hq'
    exact ⟨hranges, hforced, ⟨below_later hfresh.1 hkept.writes, hfresh.2⟩, hright⟩

variable {c₁ c₂ : Child 𝕜} {h₁ h₂ : Heap 𝕜 ρ} {o : Option (List (Child 𝕜))} (hsound : Sound engine net m)
  (hP : ∀ p, P p → m.domain p) (hr : Right net m s (fun p => P p ∧ InCell net m r.ranges r.forced p) h r)

include hsound hP hr

theorem splitRelu_spec (hrun : splitRelu engine net s r h = .ok (o, h')) : Tried net m s P h h' r o := by
  obtain ⟨w, h₁, hw, hrun₁⟩ := stateT_bind_eq_ok hrun
  cases worst_heap hw
  cases w with
  | none =>
    cases hrun₁
    exact ⟨.refl _, hr, nofun⟩
  | some e =>
    obtain ⟨sens, h₂, hsens, hrun₂⟩ := stateT_bind_eq_ok hrun₁
    obtain ⟨n, h₃, hchoose, hrun₃⟩ := stateT_bind_eq_ok hrun₂
    have hkept := (sensitivities_kept (P := fun p => P p ∧ InCell net m r.ranges r.forced p) hsound hsens).trans
      (chooseNeuron_kept hsound hchoose)
    have hr₃ := right_kept hr hkept
    cases n with
    | none =>
      cases hrun₃
      exact ⟨hkept.writes, hr₃, nofun⟩
    | some neuron =>
      obtain ⟨c₁, h₄, hc₁, hrun₄⟩ := stateT_bind_eq_ok hrun₃
      obtain ⟨c₂, h₅, hc₂, hrun₅⟩ := stateT_bind_eq_ok hrun₄
      cases hrun₅
      obtain ⟨hw₁, hranges₁, hforced₁, hk₁⟩ := branch_spec hsound hP hr₃ hc₁
      have hr₄ := right_later hr₃ hw₁ fun _ _ => id
      obtain ⟨hw₂, hranges₂, hforced₂, hk₂⟩ := branch_spec hsound hP hr₄ hc₂
      have hpair : Children net m s P h₃ h' r [c₁, c₂] := by
        apply children_pair hk₁ hk₂ hw₁ hw₂
        · intro p _ hcell
          rw [hranges₁, hranges₂, hforced₁, hforced₂]
          exact inCell_branch hcell
        · exact fun n hn => by rwa [hranges₁] at hn
        · exact fun n hn => by rwa [hranges₂] at hn
      refine ⟨(hkept.writes.trans hw₁ fun _ _ => False.elim).trans hw₂ fun _ _ => False.elim,
        right_later hr₄ hw₂ fun _ _ => id, fun cs hcs => ?_⟩
      cases hcs
      exact children_earlier hpair hkept.writes.next

theorem splitInput_spec
    (hdecl : ∀ n ∈ net.inputs, r.ranges n = none → ∀ a, net.annotated n = some a → ∀ p, P p → InRange a (p n))
    (hrun : splitInput engine net s r h = .ok (o, h')) : Tried net m s P h h' r o := by
  obtain ⟨infl, h₁, hinfl, hrun₁⟩ := stateT_bind_eq_ok hrun
  have hkept := inputInfluence_kept (P := fun p => P p ∧ InCell net m r.ranges r.forced p) hsound hinfl
  have hr₁ := right_kept hr hkept
  cases hpick : chooseInput r.ranges infl net.inputs none none with
  | none =>
    rw [hpick] at hrun₁
    cases hrun₁
    exact ⟨hkept.writes, hr₁, nofun⟩
  | some e =>
    rw [hpick] at hrun₁
    obtain ⟨b, h₂, hb, hrun₂⟩ := stateT_bind_eq_ok hrun₁
    obtain ⟨hbox, rfl⟩ := orKeyError_eq_ok hb
    obtain ⟨c₁, h₃, hc₁, hrun₃⟩ := stateT_bind_eq_ok hrun₂
    obtain ⟨c₂, h₄, hc₂, hrun₄⟩ := stateT_bind_eq_ok hrun₃
    cases hrun₄
    obtain ⟨hw₁, hranges₁, hforced₁, hk₁⟩ := half_spec hsound hP hdecl hc₁
    obtain ⟨hw₂, hranges₂, hforced₂, hk₂⟩ := half_spec hsound hP hdecl hc₂
    have hpair : Children net m s P h₂ h' r [c₁, c₂] := by
      apply children_pair hk₁ hk₂ hw₁ hw₂
      · intro p _ hcell
        rw [hranges₁, hranges₂, hforced₁, hforced₂]
        exact inCell_halves hbox e.2 hcell
      · exact fun n hn => ranges_of_update (by rwa [hranges₁] at hn)
      · exact fun n hn => ranges_of_update (by rwa [hranges₂] at hn)
    refine ⟨(hkept.writes.trans hw₁ fun _ _ => False.elim).trans hw₂ fun _ _ => False.elim,
      right_later (right_later hr₁ hw₁ fun _ _ => id) hw₂ fun _ _ => id, fun cs hcs => ?_⟩
    cases hcs
    exact children_earlier hpair hkept.writes.next

theorem trySplit_spec (hdecl : (∃ cs h₁, reluFirst engine net s r h = .ok (some cs, h₁)) ∨ s.split = .relu ∨
      ∀ n ∈ net.inputs, r.ranges n = none → ∀ a, net.annotated n = some a → ∀ p, P p → InRange a (p n))
    (hrun : trySplit engine net s r h = .ok (o, h')) : Tried net m s P h h' r o := by
  obtain ⟨got, h₁, hgot, hrun₁⟩ := stateT_bind_eq_ok hrun
  have htried : Tried net m s P h h₁ r got := by
    rw [reluFirst] at hgot
    split at hgot
    · cases hgot
      exact ⟨.refl _, hr, nofun⟩
    · exact splitRelu_spec hsound hP hr hgot
  cases got with
  | some cs =>
    cases hrun₁
    exact htried
  | none =>
    dsimp only at hrun₁
    split at hrun₁
    · cases hrun₁
      exact htried
    · next hsplit =>
      have hbranch : ¬ ∃ cs h₁, reluFirst engine net s r h = .ok (some cs, h₁) := by
        rintro ⟨cs, h₂, hcs⟩
        cases hgot.symm.trans hcs
      have hinput := splitInput_spec hsound hP htried.right ((hdecl.resolve_left hbranch).resolve_left hsplit) hrun₁
      refine ⟨htried.writes.trans hinput.writes fun _ _ => id, hinput.right, fun cs hcs => ?_⟩
      exact children_earlier (hinput.children cs hcs) htried.writes.next

end Onnxsim.Crown.Splits
