import Onnxsim.Crown.Covering

namespace Onnxsim.Crown.Verdicts

open List Option Lib.Results Overflow.Arrays Boxes Analyzers
  BranchAndBound Frames Keeping Cells Covering

section

variable {𝕜 : Type} [LinearOrder 𝕜] {t : NDArray 𝕜} {c : Range 𝕜}

theorem encloses_hull {bs : List (Range 𝕜)} (h : hull bs = some c) (hbs : ∃ b ∈ bs, Encloses b t) : Encloses c t := by
  induction bs generalizing c with
  | nil => cases h
  | cons b bs ih =>
    obtain ⟨b', hb', henc⟩ := hbs
    cases bs with
    | nil =>
      cases h
      cases mem_singleton.mp hb'
      exact henc
    | cons d ds =>
      obtain ⟨e, he, h⟩ := bind_eq_some_iff.mp h
      apply encloses_join h
      rcases mem_cons.mp hb' with rfl | hb'
      · exact .inl henc
      · exact .inr (ih he ⟨b', hb', henc⟩)

end

section

variable {𝕜 : Type} [Field 𝕜] [LinearOrder 𝕜] [IsStrictOrderedRing 𝕜] {tol : 𝕜} {l : List (Option 𝕜)} {a b : Ext 𝕜}
  {x v : 𝕜}

omit [IsStrictOrderedRing 𝕜] in
theorem finiteMax_le (htol : tol < huge) (h : finiteMax l ≤ tol) : ∀ x ∈ l, ∃ v, x = some v ∧ v ≤ tol := by
  intro x hx
  have hle : x.getD huge ≤ finiteMax l := by
    rw [finiteMax]
    cases hmax : (l.map fun x => x.getD huge).max? with
    | none =>
      rw [max?_eq_none_iff, map_eq_nil_iff] at hmax
      rw [hmax] at hx
      cases hx
    | some y => exact (max?_eq_some_iff.mp hmax).2 _ (List.mem_map_of_mem hx)
  cases x with
  | none => exact absurd (hle.trans h) (not_le.mpr htol)
  | some v => exact ⟨v, rfl, hle.trans h⟩

omit [IsStrictOrderedRing 𝕜] in
theorem excess_nonneg (h : excess a b = some x) : 0 ≤ x := by
  rw [excess] at h
  split at h
  · cases h
    exact le_max_right _ _
  · split at h
    · cases h
      exact le_refl _
    · cases h

theorem le_of_excess (h : excess a b = some x) (hx : x ≤ tol) (hb : b ≤ fin v) : a ≤ fin (v + tol) := by
  have htol : 0 ≤ tol := (excess_nonneg h).trans hx
  rw [excess] at h
  split at h
  · next y z hy hz =>
    cases h
    rw [eq_fin_of_finite? hz, fin_le_fin] at hb
    rw [eq_fin_of_finite? hy, fin_le_fin]
    have hle : y - z ≤ tol := (le_max_left _ _).trans hx
    linarith
  · split at h
    · next hlt =>
      apply (hlt.le.trans hb).trans
      rw [fin_le_fin]
      linarith
    · cases h

theorem excess_le (h : excess a b = some x) (hx : x ≤ tol) (ha : fin v ≤ a) : fin (v - tol) ≤ b := by
  have htol : 0 ≤ tol := (excess_nonneg h).trans hx
  rw [excess] at h
  split at h
  · next y z hy hz =>
    cases h
    rw [eq_fin_of_finite? hy, fin_le_fin] at ha
    rw [eq_fin_of_finite? hz, fin_le_fin]
    have hle : y - z ≤ tol := (le_max_left _ _).trans hx
    linarith
  · split at h
    · next hlt =>
      refine le_trans ?_ (ha.trans hlt.le)
      rw [fin_le_fin]
      linarith
    · cases h

theorem within_of_totals {tlos los his this : List (Ext 𝕜)} {vs : List 𝕜}
    (hlo : List.Forall₂ (fun l v => l ≤ fin v) los vs) (hhi : List.Forall₂ (fun v h => fin v ≤ h) vs his)
    (hlen : tlos.length = vs.length) (hlen' : this.length = vs.length)
    (h : ∀ x ∈ List.zipWith total (List.zipWith excess tlos los) (List.zipWith excess his this),
      ∃ v, x = some v ∧ v ≤ tol) :
    List.Forall₂ (fun l v => l ≤ fin (v + tol)) tlos vs ∧ List.Forall₂ (fun v h => fin (v - tol) ≤ h) vs this := by
  induction hlo generalizing tlos his this with
  | nil =>
    cases length_eq_zero_iff.mp hlen
    cases length_eq_zero_iff.mp hlen'
    exact ⟨.nil, .nil⟩
  | cons hl _ ih =>
    cases hhi with
    | cons hh hhis =>
      cases tlos with
      | nil => cases hlen
      | cons tlo tlos =>
        cases this with
        | nil => cases hlen'
        | cons thi this =>
          simp only [zipWith_cons_cons] at h
          obtain ⟨w, hw, hwtol⟩ := h _ mem_cons_self
          obtain ⟨x, hx, hw⟩ := bind_eq_some_iff.mp hw
          obtain ⟨y, hy, hw⟩ := bind_eq_some_iff.mp hw
          cases hw
          have hx0 := excess_nonneg hx
          have hy0 := excess_nonneg hy
          obtain ⟨hlos, hhis'⟩ := ih hhis (Nat.succ.inj hlen) (Nat.succ.inj hlen') fun z hz => h z (mem_cons_of_mem _ hz)
          exact ⟨.cons (le_of_excess hx (by linarith) hl) hlos, .cons (excess_le hy (by linarith) hh) hhis'⟩

theorem within_of_violations {target b : Range 𝕜} {t : NDArray 𝕜} (hl : violations target b = some l)
    (hb : Encloses b t) (h : ∀ x ∈ l, ∃ v, x = some v ∧ v ≤ tol) :
    Within target tol t := by
  obtain ⟨lo, hlo, hl⟩ := bind_eq_some_iff.mp hl
  obtain ⟨hi, hhi, hl⟩ := bind_eq_some_iff.mp hl
  cases hl
  rw [hb.shape.1] at hlo
  rw [hb.shape.2] at hhi
  have hlen : lo.data.length = t.data.length := by
    rw [lo.length_data, t.length_data, (NDArray.mem_broadcastTo hlo).1]
  have hlen' : hi.data.length = t.data.length := by
    rw [hi.length_data, t.length_data, (NDArray.mem_broadcastTo hhi).1]
  obtain ⟨hlos, hhis⟩ := within_of_totals hb.lo hb.hi hlen hlen' h
  exact ⟨lo, hi, hlo, hhi, hlos, hhis⟩

end

section

variable {𝕜 ρ : Type} [Field 𝕜] [LinearOrder 𝕜] [IsStrictOrderedRing 𝕜] {engine : Engine 𝕜 ρ} {net : Network 𝕜}
  {m : Meaning 𝕜 ρ} {s : Settings 𝕜} {st : State 𝕜 ρ} {p : Point 𝕜} {n : String} {outOfTime : Nat → Bool}
  {st' : State 𝕜 ρ} {budget fuel : Nat}

omit [IsStrictOrderedRing 𝕜] in
theorem exists_region (hinv : Invariant engine net m s st) (hp : Root net m s p) :
    ∃ r ∈ st.regions, (∀ n b, r.vals.get? n = some b → Encloses b (m.value p n)) ∧ Measured s r := by
  rcases hinv.covers p hp with ⟨r, hr, hcell⟩ | ⟨c, hc, hcell⟩
  · exact ⟨r, hr, (hinv.right r hr).vals p ⟨hp, hcell⟩, (hinv.right r hr).measured⟩
  · exact absurd hcell (hinv.empty c hc p hp)

omit [IsStrictOrderedRing 𝕜] in
theorem encloses_bound (hinv : Invariant engine net m s st) {b : Range 𝕜} (hb : bound st n = .ok b)
    (hp : Root net m s p) : Encloses b (m.value p n) := by
  rw [bound] at hb
  cases hroot : st.root.vals.get? n with
  | none =>
    rw [hroot] at hb
    cases hb
  | some rootBound =>
    rw [hroot] at hb
    dsimp only at hb
    have hrootenc := hinv.root p hp n rootBound hroot
    split at hb
    · cases hb
      exact hrootenc
    cases hbs : st.regions.mapM fun r => r.vals.get? n with
    | none =>
      rw [hbs] at hb
      cases hb
    | some bs =>
      rw [hbs] at hb
      dsimp only at hb
      cases hmeet : (hull bs).bind fun c => meet c rootBound with
      | none =>
        rw [hmeet] at hb
        cases hb
      | some c =>
        rw [hmeet] at hb
        cases hb
        obtain ⟨d, hd, hmeet⟩ := bind_eq_some_iff.mp hmeet
        obtain ⟨r, hr, hvals, -⟩ := exists_region hinv hp
        obtain ⟨e, he, hre⟩ := exists_of_mapM_eq_some hbs hr
        exact encloses_meet hmeet (encloses_hull hd ⟨e, he, hvals n e hre⟩) hrootenc

theorem within_of_proved (hinv : Invariant engine net m s st) (htol : s.target = none ∨ s.tol < huge)
    (hproved : proved s st = some true) {target : Ranges 𝕜} (htarget : s.target = some target) (hn : n ∈ s.names)
    (hp : Root net m s p) : ∃ t, target n = some t ∧ Within t s.tol (m.value p n) := by
  obtain ⟨r, hr, hvals, hmeasured⟩ := exists_region hinv hp
  obtain ⟨b, hb⟩ := hmeasured.names n hn
  obtain ⟨t, l, ht, hl, hle⟩ := hmeasured.violation target htarget n b hb
  have hdecided : r.violation ≤ s.tol := by
    rw [proved, htarget, isSome_some, if_pos rfl, Option.some.injEq, List.all_eq_true] at hproved
    have hr' := hproved r hr
    rw [undecided, htarget, isNone_some, Bool.false_or, Bool.not_eq_true', decide_eq_false_iff_not, not_lt] at hr'
    exact hr'
  have htol' : s.tol < huge := htol.resolve_left fun hnone => by
    rw [htarget] at hnone
    cases hnone
  exact ⟨t, ht, within_of_violations hl (hvals n b hb) (finiteMax_le htol' (hle.trans hdecided))⟩

omit [IsStrictOrderedRing 𝕜] in
/-- Whatever the clock, the loop goes through states that the search reaches. -/
theorem loop_reaches {ok : State 𝕜 ρ → Nat → Prop} (hok : ∀ st i, ok st i) {k : Nat}
    (hreaches : Reaches engine net s ok st) (hrun : loop engine net s budget outOfTime fuel k st = .ok st') :
    Reaches engine net s ok st' := by
  induction fuel generalizing k st with
  | zero =>
    cases hrun
    exact hreaches
  | succ fuel ih =>
    rw [loop] at hrun
    split at hrun
    · cases hrun
      exact hreaches
    cases hchoose : choose s st (candidates s st) none with
    | none =>
      rw [hchoose] at hrun
      cases hrun
      exact hreaches
    | some i =>
      rw [hchoose] at hrun
      obtain ⟨st₁, hsplit, hrest⟩ := bind_eq_ok hrun
      exact ih (.split hreaches (hok st i) hsplit) hrest

end

/-! `y = x + m` with `m` the greatest element of `z`, whose second dimension is symbolic: propagation has no box for `z`,
so the ranges of a region do not name it. -/

def unit (lo hi : ℚ) (shape : List Nat) (h : 1 = shape.prod) : Range ℚ := (⟨shape, [fin lo], h⟩, ⟨shape, [fin hi], h⟩)

def reduceAdd : Network ℚ where
  nodes := [⟨"ReduceMax", "z"⟩, ⟨"Add", "x"⟩]
  inputs := ["x", "z"]
  annotated n := if n = "z" then some (unit 0 1 [] rfl) else none

def greatest (t : NDArray ℚ) : ℚ := t.data.max?.getD 0

def reduceAddMeaning : Meaning ℚ Unit where
  domain p := (p "x").shape = [1] ∧ ∃ k, (p "z").shape = [1, k + 1]
  value p n :=
    if n = "m" then ⟨[1], [greatest (p "z")], rfl⟩
    else if n = "y" then ⟨[1], [(p "x").data.headD 0 + greatest (p "z")], rfl⟩
    else p n
  valid _ _ _ := True

def addBoxes (a b : Range ℚ) : Option (Range ℚ) := do
  let lo ← zip (fun x y => x + y) a.1 b.1
  let hi ← zip (fun x y => x + y) a.2 b.2
  some (lo, hi)

/-- The box of the greatest element, where one range bounds all of them. -/
def reduceBox (r : Range ℚ) : Option (Range ℚ) :=
  if h : r.1.shape = [] ∧ r.2.shape = [] then
    some (⟨[1], r.1.data, r.1.length_data.trans (by rw [h.1]; rfl)⟩, ⟨[1], r.2.data, r.2.length_data.trans (by rw [h.2]; rfl)⟩)
  else none

def propagateReduceAdd (ranges : Ranges ℚ) (n : String) : Option (Range ℚ) := do
  let x ← (ranges "x").or (reduceAdd.annotated "x")
  let lo ← x.1.broadcastTo [1]
  let hi ← x.2.broadcastTo [1]
  let z ← (ranges "z").or (reduceAdd.annotated "z")
  let m ← reduceBox z
  let y ← addBoxes (lo, hi) m
  if n = "x" then some (lo, hi) else if n = "m" then some m else if n = "y" then some y else none

def reduceAddEngine : Engine ℚ Unit where
  propagate := propagateReduceAdd
  leaf _ n := n = "x" || n = "m"
  supported _ i := i = 1
  relax _ _ := ()
  upperOffset _ := []
  unstable _ := []
  visited _ _ := []
  crown v n := (v.boxes n).getD (unit 0 0 [] rfl)
  alphaVisited _ _ := []
  alpha _ _ _ := none
  sensitivities _ _ _ := (fun n => if n = "x" || n = "m" then some [2] else none, [])

/-- Bisecting the box of `x` while `z` ranges over `z`. -/
def reduceAddSettings (z : Range ℚ) : Settings ℚ where
  inputRanges n := if n = "x" then some (unit 0 1 [1] rfl) else if n = "z" then some z else none
  names := ["y"]
  split := .input
  leafMethod := .crown
  target := none
  tol := 0

def firstSplit (z : Range ℚ) : Except String (State ℚ Unit) := do
  let st ← initial reduceAddEngine reduceAdd (reduceAddSettings z)
  splitAt reduceAddEngine reduceAdd (reduceAddSettings z) 0 st

/-- The lower bound of `y` after the first split. -/
def firstLower (z : Range ℚ) : Option (List (Ext ℚ)) :=
  match firstSplit z >>= fun st => bound st "y" with
  | .ok b => some b.1.data
  | .error _ => none

variable {t : NDArray ℚ} {v w : ℚ} {b : Range ℚ}

theorem le_greatest (hv : v ∈ t.data) : v ≤ greatest t ∧ greatest t ∈ t.data := by
  rw [greatest]
  cases hmax : t.data.max? with
  | none =>
    rw [max?_eq_none_iff] at hmax
    rw [hmax] at hv
    cases hv
  | some w => exact ⟨(max?_eq_some_iff.mp hmax).2 v hv, (max?_eq_some_iff.mp hmax).1⟩

theorem exists_eq_singleton {α : Type} {a : NDArray α} (h : a.shape = []) : ∃ x, a.data = [x] := by
  apply length_eq_one_iff.mp
  rw [a.length_data, h]
  rfl

theorem reduceBox_encloses {r : Range ℚ} (hb : reduceBox r = some b) (hr : InRange r t) (hv : v ∈ t.data) :
    Encloses b ⟨[1], [greatest t], rfl⟩ := by
  obtain ⟨lo, hi, hlo, hhi, henc⟩ := hr
  rw [reduceBox] at hb
  split at hb
  · next hshape =>
    obtain ⟨l, hl⟩ := exists_eq_singleton hshape.1
    obtain ⟨u, hu⟩ := exists_eq_singleton hshape.2
    have hmem := (le_greatest hv).2
    obtain ⟨l', hl', hle⟩ := forall₂_exists_left henc.lo hmem
    obtain ⟨u', hu', hge⟩ := forall₂_exists_left henc.hi.flip hmem
    have hl₁ := (NDArray.mem_broadcastTo hlo).2 l' hl'
    have hu₁ := (NDArray.mem_broadcastTo hhi).2 u' hu'
    rw [hl, mem_singleton] at hl₁
    rw [hu, mem_singleton] at hu₁
    cases hb
    refine ⟨⟨rfl, rfl⟩, ?_, ?_⟩
    · rw [hl, ← hl₁]
      exact .cons hle .nil
    · rw [hu, ← hu₁]
      exact .cons hge .nil
  · cases hb

theorem forall₂_singleton_add {R : Ext ℚ → ℚ → Prop} (hR : ∀ x y, R x v → R y w → R (x + y) (v + w))
    {xs ys : List (Ext ℚ)} (hx : List.Forall₂ R xs [v]) (hy : List.Forall₂ R ys [w]) :
    List.Forall₂ R (List.zipWith (fun x y => x + y) xs ys) [v + w] := by
  cases hx with
  | cons hxv hxs =>
    cases hxs
    cases hy with
    | cons hyw hys =>
      cases hys
      exact .cons (hR _ _ hxv hyw) .nil

theorem eq_singleton_array (h : t.shape = [1]) : t = ⟨[1], [t.data.headD 0], rfl⟩ := by
  obtain ⟨shape, data, hlen⟩ := t
  subst h
  obtain ⟨v, rfl⟩ := length_eq_one_iff.mp hlen
  rfl

theorem encloses_addBoxes {a c : Range ℚ} (hc : addBoxes a b = some c) (ha : Encloses a ⟨[1], [v], rfl⟩)
    (hb : Encloses b ⟨[1], [w], rfl⟩) : Encloses c ⟨[1], [v + w], rfl⟩ := by
  obtain ⟨lo, hlo, hc⟩ := bind_eq_some_iff.mp hc
  obtain ⟨hi, hhi, hc⟩ := bind_eq_some_iff.mp hc
  cases hc
  obtain ⟨hloshape, -, hlodata⟩ := zip_eq_some hlo
  obtain ⟨hhishape, -, hhidata⟩ := zip_eq_some hhi
  refine ⟨⟨hloshape.trans ha.shape.1, hhishape.trans ha.shape.2⟩, ?_, ?_⟩
  · rw [hlodata]
    exact forall₂_singleton_add (fun _ _ => add_le_add) ha.lo hb.lo
  · rw [hhidata]
    exact (forall₂_singleton_add (R := fun u v => fin v ≤ u) (fun _ _ => add_le_add) ha.hi.flip hb.hi.flip).flip

theorem reduceAdd_sound : Sound reduceAddEngine reduceAdd reduceAddMeaning := by
  constructor
  · intro p _ n hn
    rcases mem_cons.mp hn with rfl | hn
    · rfl
    · cases mem_singleton.mp hn
      rfl
  · intro ranges p hd hbox n b hb
    obtain ⟨x, hx, hb⟩ := bind_eq_some_iff.mp hb
    obtain ⟨lo, hlo, hb⟩ := bind_eq_some_iff.mp hb
    obtain ⟨hi, hhi, hb⟩ := bind_eq_some_iff.mp hb
    obtain ⟨z, hz, hb⟩ := bind_eq_some_iff.mp hb
    obtain ⟨m, hm, hb⟩ := bind_eq_some_iff.mp hb
    obtain ⟨y, hy, hb⟩ := bind_eq_some_iff.mp hb
    obtain ⟨hxshape, k, hzshape⟩ := hd
    have hxenc : Encloses (lo, hi) (p "x") := by
      obtain ⟨lo', hi', hlo', hhi', henc⟩ := hbox "x" mem_cons_self x hx
      rw [hxshape] at hlo' hhi'
      cases hlo.symm.trans hlo'
      cases hhi.symm.trans hhi'
      exact henc
    have hmenc : Encloses m ⟨[1], [greatest (p "z")], rfl⟩ := by
      obtain ⟨v, hv⟩ : ∃ v, v ∈ (p "z").data := by
        apply exists_mem_of_length_pos
        rw [(p "z").length_data, hzshape]
        simp
      exact reduceBox_encloses hm (hbox "z" (mem_cons_of_mem _ mem_cons_self) z hz) hv
    have hyenc : Encloses y ⟨[1], [(p "x").data.headD 0 + greatest (p "z")], rfl⟩ := by
      apply encloses_addBoxes hy _ hmenc
      rw [← eq_singleton_array hxshape]
      exact hxenc
    split at hb
    · next hn =>
      cases hb
      rw [hn]
      exact hxenc
    split at hb
    · next hn =>
      cases hb
      rw [hn]
      exact hmenc
    split at hb
    · next hn =>
      cases hb
      rw [hn]
      exact hyenc
    · cases hb
  · exact fun _ _ _ _ _ => trivial
  · intro v p _ hh n b hb
    have henc := hh.boxes n b hb
    change Encloses ((v.boxes n).getD _) _
    rw [hb]
    exact henc
  · exact fun _ _ _ _ _ _ _ _ h => by cases h

theorem exists_firstSplit {z : Range ℚ} {lo : List (Ext ℚ)} (h : firstLower z = some lo) :
    ∃ st₀ st b, initial reduceAddEngine reduceAdd (reduceAddSettings z) = .ok st₀ ∧
      splitAt reduceAddEngine reduceAdd (reduceAddSettings z) 0 st₀ = .ok st ∧ bound st "y" = .ok b ∧ b.1.data = lo := by
  rw [firstLower] at h
  cases hrun : firstSplit z >>= fun st => bound st "y" with
  | error e =>
    rw [hrun] at h
    cases h
  | ok b =>
    rw [hrun] at h
    cases h
    obtain ⟨st, hst, hb⟩ := bind_eq_ok hrun
    obtain ⟨st₀, hst₀, hsplit⟩ := bind_eq_ok hst
    exact ⟨st₀, st, b, hst₀, hsplit, hb, rfl⟩

end Onnxsim.Crown.Verdicts
