import Onnxsim.Crown.Splits

namespace Onnxsim.Crown.Covering

open List Lib.Results Overflow.Arrays Boxes Analyzers
  BranchAndBound Frames Keeping Cells Crown.Splits

section

variable {𝕜 ρ : Type} [Field 𝕜] [LinearOrder 𝕜] (engine : Engine 𝕜 ρ) (net : Network 𝕜) (m : Meaning 𝕜 ρ)
  (s : Settings 𝕜)

def Root (p : Point 𝕜) : Prop := m.domain p ∧ InBox net s.inputRanges p

/-- The states of a search that splits regions in any order, as long as each step is `ok`. -/
inductive Reaches (ok : State 𝕜 ρ → Nat → Prop) : State 𝕜 ρ → Prop
  | start {st : State 𝕜 ρ} : initial engine net s = .ok st → Reaches ok st
  | split {st st' : State 𝕜 ρ} {i : Nat} : Reaches ok st → ok st i → splitAt engine net s i st = .ok st' → Reaches ok st'

/-- A tensor that leaves the target by at most `tol`. -/
def Within (target : Range 𝕜) (tol : 𝕜) (t : NDArray 𝕜) : Prop :=
  ∃ lo hi, target.1.broadcastTo t.shape = some lo ∧ target.2.broadcastTo t.shape = some hi ∧
    List.Forall₂ (fun l v => l ≤ fin (v + tol)) lo.data t.data ∧
    List.Forall₂ (fun v h => fin (v - tol) ≤ h) t.data hi.data

/-- No point of the root box is lost: the regions cover what is not shown to be empty, the reported bounds hold
everywhere, what is proved holds everywhere, and a split does not touch the other regions. -/
structure NeverLoses (st : State 𝕜 ρ) : Prop where
  covers : ∀ p, Root net m s p → (∃ r ∈ st.regions, InCell net m r.ranges r.forced p) ∨
    ∃ c ∈ st.dropped, InCell net m c.1 c.2 p
  empty : ∀ c ∈ st.dropped, ∀ p, Root net m s p → ¬ InCell net m c.1 c.2 p
  encloses : ∀ n b, bound st n = .ok b → ∀ p, Root net m s p → Encloses b (m.value p n)
  proves : proved s st = some true → ∀ target, s.target = some target → ∀ n ∈ s.names, ∀ p, Root net m s p →
    ∃ t, target n = some t ∧ Within t s.tol (m.value p n)
  frames : ∀ i st', splitAt engine net s i st = .ok st' → ∀ r ∈ st.regions.eraseIdx i,
    r ∈ st'.regions ∧ viewOf r.an st'.heap = viewOf r.an st.heap

/-- A given range of an input that propagation has no box for lies in the range that the model declares. -/
def Contained : Prop :=
  ∀ n ∈ net.inputs, engine.propagate s.inputRanges n = none → ∀ g, s.inputRanges n = some g →
    ∀ a, net.annotated n = some a → ∀ t, InRange g t → InRange a t

def Admitted (st : State 𝕜 ρ) (i : Nat) : Prop :=
  (∃ r cs h, st.regions[i]? = some r ∧ reluFirst engine net s r st.heap = .ok (some cs, h)) ∨ s.split = .relu ∨
    Contained engine net s

/-- The invariant of the search. -/
structure Invariant (st : State 𝕜 ρ) : Prop where
  covers : ∀ p, Root net m s p → (∃ r ∈ st.regions, InCell net m r.ranges r.forced p) ∨
    ∃ c ∈ st.dropped, InCell net m c.1 c.2 p
  empty : ∀ c ∈ st.dropped, ∀ p, Root net m s p → ¬ InCell net m c.1 c.2 p
  right : ∀ r ∈ st.regions, Right net m s (fun p => Root net m s p ∧ InCell net m r.ranges r.forced p) st.heap r
  apart : st.regions.Pairwise fun a b => Apart a.an b.an
  declared : Contained engine net s → ∀ r ∈ st.regions, ∀ n ∈ net.inputs, r.ranges n = none →
    ∀ a, net.annotated n = some a → ∀ p, Root net m s p → InRange a (p n)
  root : ∀ p, Root net m s p → ∀ n b, st.root.vals.get? n = some b → Encloses b (m.value p n)

end

variable {𝕜 ρ : Type} [Field 𝕜] [LinearOrder 𝕜] [IsStrictOrderedRing 𝕜] {engine : Engine 𝕜 ρ} {net : Network 𝕜}
  {m : Meaning 𝕜 ρ} {s : Settings 𝕜} {st st' : State 𝕜 ρ} {i : Nat} {α : Type} {a : α} {l₁ l₂ : List (Region 𝕜)}
  {r q : Region 𝕜}

theorem exists_append_of_getElem? {l : List α} (h : l[i]? = some a) :
    ∃ l₁ l₂, l = l₁ ++ a :: l₂ ∧ l.eraseIdx i = l₁ ++ l₂ ∧ ∀ b, l.set i b = l₁ ++ b :: l₂ := by
  obtain ⟨hlt, rfl⟩ := List.getElem?_eq_some_iff.mp h
  refine ⟨l.take i, l.drop (i + 1), by simp, eraseIdx_eq_take_drop_succ .., fun b => ?_⟩
  rw [set_eq_take_append_cons_drop, if_pos hlt]

theorem sublist_append_cons {l₁ l₂ : List α} : (l₁ ++ l₂).Sublist (l₁ ++ a :: l₂) :=
  (append_sublist_append_left l₁).mpr (sublist_cons_self a l₂)

theorem mem_of_mem_append {l₁ l₂ : List α} {b : α} (h : b ∈ l₁ ++ l₂) : b ∈ l₁ ++ a :: l₂ :=
  sublist_append_cons.mem h

theorem initial_invariant (hsound : Sound engine net m) (hrun : initial engine net s = .ok st) :
    Invariant engine net m s st := by
  rw [initial] at hrun
  cases hstart : start engine net s emptyHeap with
  | error e =>
    rw [hstart] at hrun
    cases hrun
  | ok out =>
    obtain ⟨root, h⟩ := out
    rw [hstart] at hrun
    cases hrun
    obtain ⟨o, h₁, hbuild, hrun₁⟩ := stateT_bind_eq_ok hstart
    have hP : ∀ p, Root net m s p → m.domain p ∧ InBox net s.inputRanges p ∧ Satisfies net m [] p :=
      fun p hp => ⟨hp.1, hp.2, satisfies_nil⟩
    obtain ⟨-, -, hsome⟩ := build_spec hsound hP hbuild
    cases o with
    | none => cases hrun₁
    | some an =>
      obtain ⟨hfresh, hg, hboxed⟩ := hsome an rfl
      obtain ⟨v, h₂, hv, hrun₂⟩ := stateT_bind_eq_ok hrun₁
      obtain ⟨rfl, rfl⟩ := view_eq_ok hv
      obtain ⟨hkept, rfl, hranges, hforced, hright⟩ :=
        region_spec (s := s) hsound (fun p hp => hp.1) (fun p _ => satisfies_nil) hg hfresh.1 hrun₂
      have hroot : ∀ p, Root net m s p → InCell net m root.ranges root.forced p := by
        intro p hp
        rw [hranges, hforced]
        refine ⟨fun n hn b hb => ?_, satisfies_nil⟩
        dsimp only at hb
        rw [if_pos hn] at hb
        rw [← hsound.input p hp.1 n hn]
        exact (hg p hp).1.boxes n b hb
      refine ⟨fun p hp => .inl ⟨root, mem_singleton_self _, hroot p hp⟩, nofun, ?_, pairwise_singleton _ _, ?_,
        hright.vals⟩
      · intro r hr
        cases mem_singleton.mp hr
        exact right_mono hright fun p hp => hp.1
      · intro hcontained r hr n hn hnone a ha p hp
        cases mem_singleton.mp hr
        rw [hranges] at hnone
        dsimp only at hnone
        rw [if_pos hn] at hnone
        have hprop : engine.propagate s.inputRanges n = none := by
          by_contra hne
          have hsome := hboxed n (Option.isSome_iff_ne_none.mpr hne)
          dsimp only [viewOf] at hnone
          rw [hnone] at hsome
          cases hsome
        cases hgiven : s.inputRanges n with
        | none => exact hp.2 n hn a (by rw [hgiven, ha]; rfl)
        | some g => exact hcontained n hn hprop g hgiven a ha _ (hp.2 n hn g (by rw [hgiven]; rfl))

omit [IsStrictOrderedRing 𝕜] in
theorem splitAt_cases (hrun : splitAt engine net s i st = .ok st') :
    ∃ r l₁ l₂ o, st.regions[i]? = some r ∧ st.regions = l₁ ++ r :: l₂ ∧ st.regions.eraseIdx i = l₁ ++ l₂ ∧
      trySplit engine net s r st.heap = .ok (o, st'.heap) ∧ st'.root = st.root ∧
      (o = none ∧ st'.regions = l₁ ++ { r with stuck := true } :: l₂ ∧ st'.dropped = st.dropped ∨
        ∃ cs, o = some cs ∧ st'.regions = l₁ ++ l₂ ++ cs.filterMap Child.region ∧
          st'.dropped = st.dropped ++ (cs.filter fun c => c.region.isNone).map fun c => (c.ranges, c.forced)) := by
  rw [BranchAndBound.splitAt] at hrun
  cases hr : st.regions[i]? with
  | none =>
    rw [hr] at hrun
    cases hrun
  | some r =>
    rw [hr] at hrun
    dsimp only at hrun
    obtain ⟨l₁, l₂, hregions, herase, hset⟩ := exists_append_of_getElem? hr
    cases htry : trySplit engine net s r st.heap with
    | error e =>
      rw [htry] at hrun
      cases hrun
    | ok out =>
      rw [htry] at hrun
      obtain ⟨o, h⟩ := out
      cases o with
      | none =>
        cases hrun
        exact ⟨r, l₁, l₂, none, rfl, hregions, herase, htry, rfl, .inl ⟨rfl, hset _, rfl⟩⟩
      | some cs =>
        cases hrun
        exact ⟨r, l₁, l₂, some cs, rfl, hregions, herase, htry, rfl,
          .inr ⟨cs, rfl, by rw [herase], rfl⟩⟩

omit [IsStrictOrderedRing 𝕜] in
theorem replaced_invariant (news : List (Region 𝕜)) (gone : List (Ranges 𝕜 × Forced))
    (hinv : Invariant engine net m s st) (hregions : st.regions = l₁ ++ r :: l₂)
    (hperm : st'.regions.Perm (l₁ ++ l₂ ++ news)) (hdropped : st'.dropped = st.dropped ++ gone)
    (hroot : st'.root = st.root)
    (hright : ∀ q ∈ l₁ ++ l₂ ++ news, Right net m s (fun p => Root net m s p ∧ InCell net m q.ranges q.forced p) st'.heap q)
    (hapart : news.Pairwise fun a b => Apart a.an b.an) (hcross : ∀ a ∈ l₁ ++ l₂, ∀ b ∈ news, Apart a.an b.an)
    (hcovers : ∀ p, Root net m s p → InCell net m r.ranges r.forced p →
      (∃ q ∈ news, InCell net m q.ranges q.forced p) ∨ ∃ c ∈ gone, InCell net m c.1 c.2 p)
    (hempty : ∀ c ∈ gone, ∀ p, Root net m s p → ¬ InCell net m c.1 c.2 p)
    (hboxed : ∀ q ∈ news, ∀ n, q.ranges n = none → r.ranges n = none) : Invariant engine net m s st' := by
  have hold : ∀ q ∈ l₁ ++ l₂, q ∈ st.regions := by
    intro q hq
    rw [hregions]
    exact mem_of_mem_append hq
  have hr : r ∈ st.regions := by
    rw [hregions]
    exact mem_append_right _ mem_cons_self
  constructor
  · intro p hp
    rw [hdropped]
    rcases hinv.covers p hp with ⟨q, hq, hcell⟩ | ⟨c, hc, hcell⟩
    · rw [hregions] at hq
      by_cases hqr : q = r
      · subst hqr
        rcases hcovers p hp hcell with ⟨q', hq', hcell'⟩ | ⟨c, hc, hcell'⟩
        · exact .inl ⟨q', hperm.mem_iff.mpr (mem_append_right _ hq'), hcell'⟩
        · exact .inr ⟨c, mem_append_right _ hc, hcell'⟩
      · have hq' : q ∈ l₁ ++ l₂ := by
          rcases mem_append.mp hq with hq | hq
          · exact mem_append_left _ hq
          · exact mem_append_right _ ((mem_cons.mp hq).resolve_left hqr)
        exact .inl ⟨q, hperm.mem_iff.mpr (mem_append_left _ hq'), hcell⟩
    · exact .inr ⟨c, mem_append_left _ hc, hcell⟩
  · intro c hc
    rw [hdropped] at hc
    exact (mem_append.mp hc).elim (hinv.empty c) (hempty c)
  · exact fun q hq => hright q (hperm.mem_iff.mp hq)
  · rw [hperm.pairwise_iff fun h => h.symm, pairwise_append]
    have hsub : (l₁ ++ l₂).Sublist st.regions := by
      rw [hregions]
      exact sublist_append_cons
    exact ⟨hinv.apart.sublist hsub, hapart, hcross⟩
  · intro hcontained q hq n hn hnone
    rcases mem_append.mp (hperm.mem_iff.mp hq) with hq | hq
    · exact hinv.declared hcontained q (hold q hq) n hn hnone
    · exact hinv.declared hcontained r hr n hn (hboxed q hq n hnone)
  · rw [hroot]
    exact hinv.root

omit [IsStrictOrderedRing 𝕜] in
theorem apart_of_split (hinv : Invariant engine net m s st) (hregions : st.regions = l₁ ++ r :: l₂)
    (hq : q ∈ l₁ ++ l₂) : Apart q.an r.an := by
  have hap := hinv.apart
  rw [hregions, pairwise_append, pairwise_cons] at hap
  rcases mem_append.mp hq with hq | hq
  · exact hap.2.2 q hq r mem_cons_self
  · exact (hap.2.1.1 q hq).symm

theorem step_invariant (hsound : Sound engine net m) (hinv : Invariant engine net m s st)
    (hadmitted : Admitted engine net s st i) (hrun : splitAt engine net s i st = .ok st') :
    Invariant engine net m s st' := by
  obtain ⟨r, l₁, l₂, o, hr, hregions, -, htry, hroot, hcases⟩ := splitAt_cases hrun
  have hmem : r ∈ st.regions := mem_of_getElem? hr
  have hdecl : (∃ cs h₁, reluFirst engine net s r st.heap = .ok (some cs, h₁)) ∨ s.split = .relu ∨
      ∀ n ∈ net.inputs, r.ranges n = none → ∀ a, net.annotated n = some a → ∀ p, Root net m s p → InRange a (p n) := by
    rcases hadmitted with ⟨r', cs, h, hr', hrelu⟩ | hrelu | hcontained
    · cases hr.symm.trans hr'
      exact .inl ⟨cs, h, hrelu⟩
    · exact .inr (.inl hrelu)
    · exact .inr (.inr (hinv.declared hcontained r hmem))
  have htried := trySplit_spec (P := Root net m s) hsound (fun p hp => hp.1) (hinv.right r hmem) hdecl htry
  have hold : ∀ q ∈ l₁ ++ l₂, Right net m s (fun p => Root net m s p ∧ InCell net m q.ranges q.forced p) st'.heap q := by
    intro q hq
    have hq' : q ∈ st.regions := by
      rw [hregions]
      exact mem_of_mem_append hq
    exact right_later (hinv.right q hq') htried.writes (apart_of_split hinv hregions hq)
  rcases hcases with ⟨rfl, hregions', hdropped⟩ | ⟨cs, rfl, hregions', hdropped⟩
  · have hmarked : Right net m s (fun p => Root net m s p ∧ InCell net m r.ranges r.forced p) st'.heap
        { r with stuck := true } :=
      ⟨htried.right.grounded, htried.right.vals, ⟨htried.right.measured.names, htried.right.measured.violation⟩,
        htried.right.below⟩
    apply replaced_invariant [{ r with stuck := true }] [] hinv hregions
    · rw [hregions']
      exact perm_middle.trans (perm_append_singleton _ _).symm
    · rw [hdropped, append_nil]
    · exact hroot
    · intro q hq
      rcases mem_append.mp hq with hq | hq
      · exact hold q hq
      · cases mem_singleton.mp hq
        exact hmarked
    · exact pairwise_singleton _ _
    · intro a ha b hb
      cases mem_singleton.mp hb
      exact fun i => apart_of_split hinv hregions ha i
    · exact fun p _ hcell => .inl ⟨_, mem_singleton_self _, hcell⟩
    · exact fun c hc => absurd hc not_mem_nil
    · intro q hq n hn
      cases mem_singleton.mp hq
      exact hn
  · obtain ⟨hkids, hapart, hcovers, hboxed⟩ := htried.children cs rfl
    have hkid : ∀ q ∈ cs.filterMap Child.region, ∃ c ∈ cs, c.region = some q := by
      intro q hq
      exact mem_filterMap.mp hq
    apply replaced_invariant (cs.filterMap Child.region)
      ((cs.filter fun c => c.region.isNone).map fun c => (c.ranges, c.forced)) hinv hregions
    · rw [hregions']
    · exact hdropped
    · exact hroot
    · intro q hq
      rcases mem_append.mp hq with hq | hq
      · exact hold q hq
      · obtain ⟨c, hc, hcq⟩ := hkid q hq
        obtain ⟨hranges, hforced, -, hright⟩ := (hkids c hc).some q hcq
        rw [hranges, hforced]
        exact hright
    · rw [pairwise_filterMap]
      exact hapart.imp fun h a ha b hb => h a b ha hb
    · intro a ha b hb i hia hib
      obtain ⟨c, hc, hcb⟩ := hkid b hb
      have ha' : a ∈ st.regions := by
        rw [hregions]
        exact mem_of_mem_append ha
      have hlt : i < st.heap.next := (hinv.right a ha').below i hia
      exact absurd hlt (not_lt.mpr (((hkids c hc).some b hcb).2.2.1.2 i hib))
    · intro p hp hcell
      obtain ⟨c, hc, hcell'⟩ := hcovers p hp hcell
      cases hregion : c.region with
      | none =>
        refine .inr ⟨(c.ranges, c.forced), List.mem_map_of_mem (mem_filter.mpr ⟨hc, ?_⟩), hcell'⟩
        rw [hregion]
        rfl
      | some q =>
        obtain ⟨hranges, hforced, -, -⟩ := (hkids c hc).some q hregion
        refine .inl ⟨q, mem_filterMap.mpr ⟨c, hc, hregion⟩, ?_⟩
        rw [hranges, hforced]
        exact hcell'
    · intro c' hc' p hp hcell
      obtain ⟨c, hc, rfl⟩ := List.mem_map.mp hc'
      obtain ⟨hc, hnone⟩ := mem_filter.mp hc
      exact (hkids c hc).none (Option.isNone_iff_eq_none.mp hnone) p hp hcell
    · intro q hq n hn
      obtain ⟨c, hc, hcq⟩ := hkid q hq
      rw [((hkids c hc).some q hcq).1] at hn
      exact hboxed c hc n hn

theorem reaches_invariant (hsound : Sound engine net m) (h : Reaches engine net s (Admitted engine net s) st) :
    Invariant engine net m s st := by
  induction h with
  | start hinit => exact initial_invariant hsound hinit
  | split _ hadmitted hrun ih => exact step_invariant hsound ih hadmitted hrun

theorem splitAt_frames (hsound : Sound engine net m) (hinv : Invariant engine net m s st)
    (hrun : splitAt engine net s i st = .ok st') (hq : q ∈ st.regions.eraseIdx i) :
    q ∈ st'.regions ∧ viewOf q.an st'.heap = viewOf q.an st.heap := by
  obtain ⟨r, l₁, l₂, o, hr, hregions, herase, htry, -, hcases⟩ := splitAt_cases hrun
  rw [herase] at hq
  have hmem : r ∈ st.regions := mem_of_getElem? hr
  have hq' : q ∈ st.regions := by
    rw [hregions]
    exact mem_of_mem_append hq
  -- what is written does not depend on which points are looked at
  have htried := trySplit_spec (P := fun _ => False) hsound (fun _ => False.elim)
    (right_mono (hinv.right r hmem) fun p hp => hp.1.elim) (.inr (.inr fun _ _ _ _ _ _ hp => hp.elim)) htry
  refine ⟨?_, viewOf_eq htried.writes (hinv.right q hq').below (apart_of_split hinv hregions hq)⟩
  rcases hcases with ⟨-, hregions', -⟩ | ⟨cs, -, hregions', -⟩
  · rw [hregions']
    exact mem_of_mem_append hq
  · rw [hregions']
    exact mem_append_left _ hq

end Onnxsim.Crown.Covering
