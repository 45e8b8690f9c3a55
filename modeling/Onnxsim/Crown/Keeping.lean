import Mathlib.Tactic.Positivity
import Onnxsim.Crown.Analyzers

namespace Onnxsim.Crown.Keeping

open List Lib.Results Overflow.Arrays Boxes Analyzers Frames

variable {u : Unit} {f : Flags} {idx : Nat} {name : String} {node : Node}

section

variable {𝕜 ρ : Type} [LinearOrder 𝕜] (net : Network 𝕜) (m : Meaning 𝕜 ρ) (P : Point 𝕜 → Prop)

/-- What an operation on an analyser leaves: the other objects, the tensors that have boxes, and at the points of `P`
what holds there and that they are not excluded. -/
structure Kept (an : Analyzer 𝕜) (h h' : Heap 𝕜 ρ) : Prop where
  writes : Writes (At an) h h'
  boxed : ∀ n, (h.boxes an.ib n).isSome → (h'.boxes an.ib n).isSome
  holds : ∀ p, P p → Holds net m (viewOf an h) p → Holds net m (viewOf an h') p
  feasible : ∀ p, P p → Holds net m (viewOf an h) p → (h'.flags an.flags).infeasible = true →
    (h.flags an.flags).infeasible = true

/-- An analyser that is right at the points of `P`. -/
def Grounded (an : Analyzer 𝕜) (h : Heap 𝕜 ρ) : Prop :=
  ∀ p, P p → Holds net m (viewOf an h) p ∧ ∀ n b, an.intervals n = some b → Encloses b (m.value p n)

variable {net m P} {S : Nat → Prop} {an : Analyzer 𝕜} {h h' h'' : Heap 𝕜 ρ}

theorem Kept.refl (an : Analyzer 𝕜) (h : Heap 𝕜 ρ) : Kept net m P an h h :=
  ⟨.refl h, fun _ => id, fun _ _ => id, fun _ _ _ => id⟩

theorem Kept.trans (h₁ : Kept net m P an h h') (h₂ : Kept net m P an h' h'') : Kept net m P an h h'' :=
  ⟨h₁.writes.trans h₂.writes fun _ _ hi => hi, fun n hn => h₂.boxed n (h₁.boxed n hn),
    fun p hp hh => h₂.holds p hp (h₁.holds p hp hh),
    fun p hp hh hinf => h₁.feasible p hp hh (h₂.feasible p hp (h₁.holds p hp hh) hinf)⟩

theorem setFlags_kept (hrun : setFlags an f h = .ok (u, h'))
    (hf : ∀ p, P p → Holds net m (viewOf an h) p → f.infeasible = true → (h.flags an.flags).infeasible = true) :
    Kept net m P an h h' := by
  cases hrun
  refine ⟨setFlags_writes an f h, fun _ => id, fun _ _ => id, fun p hp hh hinf => hf p hp hh ?_⟩
  dsimp only at hinf
  rwa [Function.update_self] at hinf

theorem setBox_kept {n : String} {b : Range 𝕜} (hrun : setBox an n b h = .ok (u, h'))
    (hb : ∀ p, P p → Holds net m (viewOf an h) p → Encloses b (m.value p n)) : Kept net m P an h h' := by
  cases hrun
  refine ⟨setBox_writes an _ h, fun k hk => ?_, fun p hp hh => ⟨fun k c hc => ?_, hh.relaxes⟩, fun _ _ _ => id⟩
  · dsimp only
    rw [Function.update_self]
    by_cases hkn : k = n
    · rw [hkn, Function.update_self]
      rfl
    · rwa [Function.update_of_ne hkn]
  · dsimp only [viewOf] at hc
    rw [Function.update_self] at hc
    by_cases hkn : k = n
    · rw [hkn, Function.update_self] at hc
      cases hc
      rw [hkn]
      exact hb p hp hh
    · rw [Function.update_of_ne hkn] at hc
      exact hh.boxes k c hc

theorem setRelax_kept {r : Option ρ} (hrun : setRelax an idx r h = .ok (u, h'))
    (hr : ∀ p, P p → Holds net m (viewOf an h) p → ∀ node s, r = some s → net.nodes[idx]? = some node →
      m.valid node s (m.value p node.input)) :
    Kept net m P an h h' := by
  cases hrun
  refine ⟨setRelax_writes an _ h, fun _ => id, fun p hp hh => ⟨hh.boxes, fun j node s hs hnode => ?_⟩, fun _ _ _ => id⟩
  dsimp only [viewOf] at hs
  rw [Function.update_self] at hs
  by_cases hj : j = idx
  · rw [hj, Function.update_self] at hs
    exact hr p hp hh node s hs (hj ▸ hnode)
  · rw [Function.update_of_ne hj] at hs
    exact hh.relaxes j node s hs hnode

theorem grounded_later (hg : Grounded net m P an h) (hb : Below an h) (hw : Writes S h h') (hout : ∀ i, At an i → ¬ S i) :
    Grounded net m P an h' := by
  intro p hp
  rw [viewOf_eq hw hb hout]
  exact hg p hp

theorem grounded_kept (hg : Grounded net m P an h) (hk : Kept net m P an h h') : Grounded net m P an h' :=
  fun p hp => ⟨hk.holds p hp (hg p hp).1, (hg p hp).2⟩

end

section

variable {𝕜 ρ α : Type} {net : Network 𝕜} {an : Analyzer 𝕜} {h h' : Heap 𝕜 ρ}

theorem view_eq_ok {v : View 𝕜 ρ} (hrun : view an h = .ok (v, h')) : v = viewOf an h ∧ h' = h := by
  cases hrun
  exact ⟨rfl, rfl⟩

theorem flagsOf_eq_ok (hrun : flagsOf an h = .ok (f, h')) : f = h.flags an.flags ∧ h' = h := by
  cases hrun
  exact ⟨rfl, rfl⟩

variable {x : Option α} {a : α}

theorem orKeyError_eq_ok (hrun : orKeyError name x h = .ok (a, h')) : x = some a ∧ h' = h := by
  cases x with
  | none => cases hrun
  | some b =>
    cases hrun
    exact ⟨rfl, rfl⟩

theorem orBroadcastError_eq_ok (hrun : orBroadcastError x h = .ok (a, h')) : x = some a ∧ h' = h := by
  cases x with
  | none => cases hrun
  | some b =>
    cases hrun
    exact ⟨rfl, rfl⟩

theorem nodeAt_eq_ok (hrun : nodeAt net idx h = .ok (node, h')) : net.nodes[idx]? = some node ∧ h' = h := by
  rw [nodeAt] at hrun
  cases hnode : net.nodes[idx]? with
  | none =>
    rw [hnode] at hrun
    cases hrun
  | some n =>
    rw [hnode] at hrun
    cases hrun
    exact ⟨rfl, rfl⟩

theorem clone_spec {an' : Analyzer 𝕜} (hrun : clone an h = .ok (an', h')) :
    Writes (fun _ => False) h h' ∧ Fresh an' h h' ∧ viewOf an' h' = viewOf an h ∧
      (h'.flags an'.flags).infeasible = false ∧ an'.intervals = an.intervals := by
  obtain ⟨v, h₁, hv, hrun₁⟩ := stateT_bind_eq_ok hrun
  obtain ⟨rfl, rfl⟩ := view_eq_ok hv
  obtain ⟨f, h₂, hf, hrun₂⟩ := stateT_bind_eq_ok hrun₁
  obtain ⟨rfl, rfl⟩ := flagsOf_eq_ok hf
  obtain ⟨hwrites, hfresh, hview, hflags, hintervals⟩ := allocate_spec hrun₂
  exact ⟨hwrites, hfresh, hview, by rw [hflags], hintervals⟩

variable [LinearOrder 𝕜] [Zero 𝕜] {engine : Engine 𝕜 ρ} {m : Meaning 𝕜 ρ} {P : Point 𝕜 → Prop}

theorem relax_spec (hsound : Sound engine net m) {r : ρ} (hrun : relax engine net an idx h = .ok (r, h')) :
    Kept net m P an h h' ∧ h'.boxes = h.boxes := by
  obtain ⟨v, h₁, hv, hrun₁⟩ := stateT_bind_eq_ok hrun
  obtain ⟨rfl, rfl⟩ := view_eq_ok hv
  cases hcache : (viewOf an h₁).relaxes idx with
  | some s =>
    rw [hcache] at hrun₁
    cases hrun₁
    exact ⟨.refl an _, rfl⟩
  | none =>
    rw [hcache] at hrun₁
    obtain ⟨node, h₂, hn, hrun₂⟩ := stateT_bind_eq_ok hrun₁
    obtain ⟨hnode, rfl⟩ := nodeAt_eq_ok hn
    obtain ⟨b, h₃, hb, hrun₃⟩ := stateT_bind_eq_ok hrun₂
    obtain ⟨hbox, rfl⟩ := orKeyError_eq_ok hb
    obtain ⟨u, h₄, hset, hrun₄⟩ := stateT_bind_eq_ok hrun₃
    cases hrun₄
    refine ⟨setRelax_kept hset fun p _ hh node' s hs hnode' => ?_, by cases hset; rfl⟩
    cases hs
    cases hnode.symm.trans hnode'
    exact hsound.relax node (mem_of_getElem? hnode) b _ (hh.boxes _ _ hbox)

theorem relaxAll_spec (hsound : Sound engine net m) {l : List Nat} (hrun : relaxAll engine net an l h = .ok (u, h')) :
    Kept net m P an h h' ∧ h'.boxes = h.boxes := by
  induction l generalizing h with
  | nil =>
    cases hrun
    exact ⟨.refl an _, rfl⟩
  | cons idx l ih =>
    obtain ⟨r, h₁, hr, hrest⟩ := stateT_bind_eq_ok hrun
    obtain ⟨hkept, hboxes⟩ := relax_spec (P := P) hsound hr
    obtain ⟨hkept', hboxes'⟩ := ih hrest
    exact ⟨hkept.trans hkept', hboxes'.trans hboxes⟩

theorem tensorBounds_spec (hsound : Sound engine net m) {b : Range 𝕜}
    (hrun : tensorBounds engine net an name h = .ok (b, h')) :
    Kept net m P an h h' ∧ h'.boxes = h.boxes ∧
      ∀ p, m.domain p → Holds net m (viewOf an h') p → Encloses b (m.value p name) := by
  obtain ⟨v, h₁, hv, hrun₁⟩ := stateT_bind_eq_ok hrun
  obtain ⟨rfl, rfl⟩ := view_eq_ok hv
  obtain ⟨box, h₂, hb, hrun₂⟩ := stateT_bind_eq_ok hrun₁
  obtain ⟨hbox, rfl⟩ := orKeyError_eq_ok hb
  obtain ⟨u, h₃, hall, hrun₃⟩ := stateT_bind_eq_ok hrun₂
  cases hrun₃
  obtain ⟨hkept, hboxes⟩ := relaxAll_spec (P := P) hsound hall
  refine ⟨hkept, hboxes, fun p hd hh => hsound.crown _ p hd hh name box ?_⟩
  rw [viewOf, hboxes]
  exact hbox

variable {sign : Bool} {flat : Nat} {t : NDArray 𝕜} {b : Range 𝕜}

theorem encloses_cut {c : Range 𝕜} (hcut : cut b flat sign = .ok (some c)) (hb : Encloses b t)
    (ht : ∀ x, t.data[flat]? = some x → if sign then 0 ≤ x else x ≤ 0) : Encloses c t := by
  rw [cut] at hcut
  split at hcut
  · next lo hi hlo hhi =>
    have hsides : ∀ x, t.data[flat]? = some x →
        (if sign then max lo (fin 0) else lo) ≤ fin x ∧ fin x ≤ (if sign then hi else min hi (fin 0)) := by
      intro x hx
      have hlox : lo ≤ fin x := forall₂_getElem? (R := fun l v => l ≤ fin v) hb.lo hlo hx
      have hxhi : fin x ≤ hi := forall₂_getElem? (R := fun h v => fin v ≤ h) hb.hi.flip hhi hx
      have hsign := ht x hx
      cases sign with
      | true => exact ⟨max_le hlox (fin_le_fin.mpr hsign), hxhi⟩
      | false => exact ⟨hlox, le_min hxhi (fin_le_fin.mpr hsign)⟩
    dsimp only at hcut
    by_cases hlt : (if sign then hi else min hi (fin 0)) < (if sign then max lo (fin 0) else lo)
    · rw [if_pos hlt] at hcut
      cases hcut
    · rw [if_neg hlt] at hcut
      cases hcut
      exact encloses_setHi (encloses_setLo hb fun x hx => (hsides x hx).1) fun x hx => (hsides x hx).2
  · cases hcut

theorem not_encloses_of_cut (hcut : cut b flat sign = .ok none) (hb : Encloses b t)
    (ht : ∀ x, t.data[flat]? = some x → if sign then 0 ≤ x else x ≤ 0) : False := by
  rw [cut] at hcut
  split at hcut
  · next lo hi hlo hhi =>
    have hlen : flat < t.data.length := by
      rw [← hb.lo.length_eq]
      exact (List.getElem?_eq_some_iff.mp hlo).1
    have hx : t.data[flat]? = some t.data[flat] := getElem?_eq_getElem hlen
    have hlox : lo ≤ fin t.data[flat] := forall₂_getElem? (R := fun l v => l ≤ fin v) hb.lo hlo hx
    have hxhi : fin t.data[flat] ≤ hi := forall₂_getElem? (R := fun h v => fin v ≤ h) hb.hi.flip hhi hx
    have hsign := ht _ hx
    dsimp only at hcut
    by_cases hlt : (if sign then hi else min hi (fin 0)) < (if sign then max lo (fin 0) else lo)
    · cases sign with
      | true => exact absurd ((max_le hlox (fin_le_fin.mpr hsign)).trans hxhi) (not_le.mpr hlt)
      | false => exact absurd (hlox.trans (le_min hxhi (fin_le_fin.mpr hsign))) (not_le.mpr hlt)
    · rw [if_neg hlt] at hcut
      cases hcut
  · cases hcut

theorem restrict_spec {ok : Bool} (hrun : restrict net an idx flat sign h = .ok (ok, h'))
    (hP : ∀ p, P p → Satisfies net m [(idx, flat, sign)] p) :
    Kept net m P an h h' ∧ (ok = false → ∀ p, P p → ¬ Holds net m (viewOf an h) p) := by
  obtain ⟨v, h₁, hv, hrun₁⟩ := stateT_bind_eq_ok hrun
  obtain ⟨rfl, rfl⟩ := view_eq_ok hv
  obtain ⟨node, h₂, hn, hrun₂⟩ := stateT_bind_eq_ok hrun₁
  obtain ⟨hnode, rfl⟩ := nodeAt_eq_ok hn
  obtain ⟨b, h₃, hb, hrun₃⟩ := stateT_bind_eq_ok hrun₂
  obtain ⟨hbox, rfl⟩ := orKeyError_eq_ok hb
  obtain ⟨c, h₄, hc, hrun₄⟩ := stateT_bind_eq_ok hrun₃
  have hside := fun p hp => hP p hp _ (mem_singleton_self _) node hnode
  obtain ⟨c', hcut, hlift⟩ := bind_eq_ok (x := cut b flat sign) hc
  cases hlift
  cases c with
  | none =>
    cases hrun₄
    exact ⟨.refl an _, fun _ p hp hh => not_encloses_of_cut hcut (hh.boxes _ _ hbox) (hside p hp)⟩
  | some c =>
    obtain ⟨u₅, h₅, hset, hrun₅⟩ := stateT_bind_eq_ok hrun₄
    obtain ⟨u₆, h₆, hclear, hrun₆⟩ := stateT_bind_eq_ok hrun₅
    cases hrun₆
    refine ⟨?_, nofun⟩
    have hbox' : Kept net m P an h₃ h₅ := setBox_kept hset fun p hp hh =>
      encloses_cut hcut (hh.boxes _ _ hbox) (hside p hp)
    exact hbox'.trans (setRelax_kept hclear nofun)

end

variable {𝕜 : Type} [Field 𝕜] [LinearOrder 𝕜] [IsStrictOrderedRing 𝕜] {b c known : Range 𝕜} {t : NDArray 𝕜} {v : 𝕜}
  {x : Ext 𝕜}

theorem not_clearlyEmpty {lo hi : Ext 𝕜} (hlo : lo ≤ fin v) (hhi : fin v ≤ hi) : clearlyEmpty lo hi = false := by
  rw [clearlyEmpty]
  split
  · next l h hl hh =>
    rw [eq_fin_of_finite? hl, fin_le_fin] at hlo
    rw [eq_fin_of_finite? hh, fin_le_fin] at hhi
    have htol : 0 ≤ (1 + |l| + |h|) / (10 : ℕ) ^ 7 := by positivity
    apply decide_eq_false
    intro hlt
    linarith
  · rfl

theorem any_clearlyEmpty {los his : List (Ext 𝕜)} {vs : List 𝕜} (hlo : List.Forall₂ (fun l v => l ≤ fin v) los vs)
    (hhi : List.Forall₂ (fun v h => fin v ≤ h) vs his) : (List.zipWith clearlyEmpty los his).any id = false := by
  induction hlo generalizing his with
  | nil => rfl
  | cons hl _ ih =>
    cases hhi with
    | cons hh hhis => rw [zipWith_cons_cons, any_cons, not_clearlyEmpty hl hh, ih hhis, id, Bool.false_or]

theorem finishLo_le (hx : x ≤ fin v) : finishLo x ≤ fin v := by
  rw [finishLo]
  split
  · next w hw =>
    rw [eq_fin_of_finite? hw, fin_le_fin] at hx
    split
    · exact bot_le
    · have hwide : 0 ≤ widening * |w| := mul_nonneg (by rw [widening]; positivity) (abs_nonneg w)
      rw [fin_le_fin]
      linarith
  · exact hx

theorem le_finishHi (hx : fin v ≤ x) : fin v ≤ finishHi x := by
  rw [finishHi]
  split
  · next w hw =>
    rw [eq_fin_of_finite? hw, fin_le_fin] at hx
    split
    · exact fin_le_posInf v
    · have hwide : 0 ≤ widening * |w| := mul_nonneg (by rw [widening]; positivity) (abs_nonneg w)
      rw [fin_le_fin]
      linarith
  · exact hx

theorem encloses_finish (h : finish b known = some c) (hb : Encloses b t) (hknown : Encloses known t) : Encloses c t := by
  apply encloses_meet h _ hknown
  refine ⟨hb.shape, ?_, ?_⟩
  · exact forall₂_map_left_iff.mpr (hb.lo.imp fun _ _ => finishLo_le)
  · exact forall₂_map_right_iff.mpr (hb.hi.imp fun _ _ => le_finishHi)

variable {ρ : Type} {engine : Engine 𝕜 ρ} {net : Network 𝕜} {m : Meaning 𝕜 ρ} {P : Point 𝕜 → Prop} {an : Analyzer 𝕜}
  {h h' : Heap 𝕜 ρ} (hsound : Sound engine net m) (hP : ∀ p, P p → m.domain p)

include hsound hP

theorem refineNode_kept (hrun : refineNode engine net an idx node h = .ok (u, h')) : Kept net m P an h h' := by
  obtain ⟨v, h₁, hv, hrun₁⟩ := stateT_bind_eq_ok hrun
  obtain ⟨rfl, rfl⟩ := view_eq_ok hv
  split at hrun₁
  · cases hrun₁
    exact .refl an _
  obtain ⟨b, h₂, hb, hrun₂⟩ := stateT_bind_eq_ok hrun₁
  obtain ⟨hbox, rfl⟩ := orKeyError_eq_ok hb
  split at hrun₂
  · cases hrun₂
    exact .refl an _
  obtain ⟨c, h₃, hc, hrun₃⟩ := stateT_bind_eq_ok hrun₂
  obtain ⟨hkept, hboxes, hcrown⟩ := tensorBounds_spec (P := P) hsound hc
  have henc : ∀ b', meet b c = some b' → ∀ p, P p → Holds net m (viewOf an h₃) p →
      Encloses b' (m.value p node.input) := by
    intro b' hmeet p hp hh
    have hbox' : h₃.boxes an.ib node.input = some b := by rw [hboxes]; exact hbox
    exact encloses_meet hmeet (hh.boxes _ _ hbox') (hcrown p (hP p hp) hh)
  cases hmeet : meet b c with
  | none =>
    rw [hmeet] at hrun₃
    cases hrun₃
  | some b' =>
    rw [hmeet] at hrun₃
    obtain ⟨f, h₄, hf, hrun₄⟩ := stateT_bind_eq_ok hrun₃
    obtain ⟨rfl, rfl⟩ := flagsOf_eq_ok hf
    obtain ⟨u₅, h₅, hflags, hrun₅⟩ := stateT_bind_eq_ok hrun₄
    obtain ⟨u₆, h₆, hset, hclear⟩ := stateT_bind_eq_ok hrun₅
    have hflags' : Kept net m P an h₄ h₅ := setFlags_kept hflags fun p hp hh hinf => by
      rw [any_clearlyEmpty (henc b' hmeet p hp hh).lo (henc b' hmeet p hp hh).hi, Bool.or_false] at hinf
      exact hinf
    have hset' : Kept net m P an h₅ h₆ := setBox_kept hset (by cases hflags; exact henc b' hmeet)
    exact hkept.trans (hflags'.trans (hset'.trans (setRelax_kept hclear nofun)))

theorem refineNodes_kept {nodes : List Node} (hrun : refineNodes engine net an idx nodes h = .ok (u, h')) :
    Kept net m P an h h' := by
  induction nodes generalizing idx h with
  | nil =>
    cases hrun
    exact .refl an _
  | cons node nodes ih =>
    obtain ⟨u₁, h₁, hnode, hrest⟩ := stateT_bind_eq_ok hrun
    exact (refineNode_kept hsound hP hnode).trans (ih hrest)

theorem refine_kept {force : Bool} (hrun : refine engine net an force h = .ok (u, h')) : Kept net m P an h h' := by
  obtain ⟨f, h₁, hf, hrun₁⟩ := stateT_bind_eq_ok hrun
  obtain ⟨rfl, rfl⟩ := flagsOf_eq_ok hf
  split at hrun₁
  · cases hrun₁
    exact .refl an _
  · obtain ⟨u₂, h₂, hset, hrun₂⟩ := stateT_bind_eq_ok hrun₁
    have hflags : Kept net m P an h₁ h₂ := setFlags_kept hset fun _ _ _ => id
    exact hflags.trans (refineNodes_kept hsound hP hrun₂)

theorem final_spec {b : Range 𝕜} (hrun : final engine net an name h = .ok (b, h'))
    (hint : ∀ p, P p → ∀ n c, an.intervals n = some c → Encloses c (m.value p n)) :
    Kept net m P an h h' ∧ ∀ p, P p → Holds net m (viewOf an h) p → Encloses b (m.value p name) := by
  obtain ⟨known, h₁, hk, hrun₁⟩ := stateT_bind_eq_ok hrun
  obtain ⟨hknown, rfl⟩ := orKeyError_eq_ok hk
  split at hrun₁
  · cases hrun₁
    exact ⟨.refl an _, fun p hp _ => hint p hp _ _ hknown⟩
  · obtain ⟨c, h₂, hc, hrun₂⟩ := stateT_bind_eq_ok hrun₁
    obtain ⟨hkept, -, hcrown⟩ := tensorBounds_spec (P := P) hsound hc
    obtain ⟨hfinish, rfl⟩ := orBroadcastError_eq_ok hrun₂
    refine ⟨hkept, fun p hp hh => ?_⟩
    exact encloses_finish hfinish (hcrown p (hP p hp) (hkept.holds p hp hh)) (hint p hp _ _ hknown)

end Onnxsim.Crown.Keeping
