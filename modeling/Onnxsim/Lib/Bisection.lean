import Mathlib.Data.List.Nodup
import Mathlib.Data.List.Pairwise

namespace Onnxsim.Lib.Bisection

open List

variable {α σ ε : Type}

/-- Run a slice at once; when that fails run its halves, the lower one first. An item that fails on its
own is skipped. -/
def bisect (run : List α → σ → Except ε σ) : Nat → List α → σ → σ
  | 0, _, s => s
  | fuel + 1, l, s =>
    if l.isEmpty then s
    else
      match run l s with
      | .ok s' => s'
      | .error _ =>
        if l.length = 1 then s
        else bisect run fuel (l.drop (l.length / 2)) (bisect run fuel (l.take (l.length / 2)) s)

def batches (next : List α → List α × List α) : Nat → List α → List (List α)
  | 0, _ => []
  | fuel + 1, l => if l.isEmpty then [] else (next l).1 :: batches next fuel (next l).2

def traced (run : List α → σ → Except ε σ) (l : List α) (s : σ × List α) : Except ε (σ × List α) :=
  (run l s.1).map fun s' => (s', s.2 ++ l)

theorem bisect_traced_fst (run : List α → σ → Except ε σ) (fuel : Nat) (l : List α) (s : σ × List α) :
    (bisect (traced run) fuel l s).1 = bisect run fuel l s.1 := by
  induction fuel generalizing l s with
  | zero => rfl
  | succ fuel ih =>
    rw [bisect, bisect, traced]
    split
    · rfl
    · cases run l s.1 with
      | ok s' => rfl
      | error e =>
        simp only [Except.map]
        split
        · rfl
        · rw [ih, ih]

variable {l b u : List α} {fuel : Nat} {s : σ} {a : α}

theorem halves {all seen : List α} (hall : seen ++ l <+: all) :
    seen ++ l = seen ++ l.take (l.length / 2) ++ l.drop (l.length / 2) ∧ seen ++ l.take (l.length / 2) <+: all := by
  have hsplit : seen ++ l = seen ++ l.take (l.length / 2) ++ l.drop (l.length / 2) := by
    rw [append_assoc, take_append_drop]
  rw [hsplit] at hall
  exact ⟨hsplit, (prefix_append _ _).trans hall⟩

theorem length_halves (hfuel : l.length ≤ fuel + 1) (hne : l ≠ []) (hlen : l.length ≠ 1) :
    (l.take (l.length / 2)).length ≤ fuel ∧ (l.drop (l.length / 2)).length ≤ fuel := by
  have hpos := length_pos_iff.mpr hne
  rw [length_take, List.length_drop]
  omega

section

variable {run : List α → σ → Except ε σ} (all : List α) (Inv : List α → σ → Prop)

/-- The rule for bisection: `Inv seen s` says what holds once every item of `seen` has had its chance.
It is kept by a slice that runs and by a single item that does not. -/
theorem bisect_induct (hrun : ∀ seen l s s', seen ++ l <+: all → Inv seen s → run l s = .ok s' → Inv (seen ++ l) s')
    (hskip : ∀ seen a s e, seen ++ [a] <+: all → Inv seen s → run [a] s = .error e → Inv (seen ++ [a]) s)
    (seen : List α) (hfuel : l.length ≤ fuel) (hall : seen ++ l <+: all) (h : Inv seen s) :
    Inv (seen ++ l) (bisect run fuel l s) := by
  induction fuel generalizing seen l s with
  | zero =>
    rw [length_eq_zero_iff.mp (Nat.le_zero.mp hfuel), append_nil]
    exact h
  | succ fuel ih =>
    rw [bisect]
    split
    · next hnil =>
      rw [List.isEmpty_iff.mp hnil, append_nil]
      exact h
    next hne =>
    split
    · next s' hs' => exact hrun seen l s s' hall h hs'
    · next e he =>
      split
      · next hone =>
        obtain ⟨a, rfl⟩ := length_eq_one_iff.mp hone
        exact hskip seen a s e hall h he
      · next hlen =>
        obtain ⟨hsplit, hlow⟩ := halves hall
        obtain ⟨hfuelLow, hfuelHigh⟩ := length_halves hfuel (fun h0 => hne (List.isEmpty_iff.mpr h0)) hlen
        rw [hsplit]
        exact ih _ hfuelHigh (hsplit ▸ hall) (ih seen hfuelLow hlow h)

end

section

variable {next : List α → List α × List α}

theorem batches_flatten (happend : ∀ l, (next l).1 ++ (next l).2 = l) (hprogress : ∀ l, l ≠ [] → (next l).1 ≠ [])
    (hfuel : l.length ≤ fuel) :
    (batches next fuel l).flatten = l := by
  induction fuel generalizing l with
  | zero =>
    rw [length_eq_zero_iff.mp (Nat.le_zero.mp hfuel)]
    rfl
  | succ fuel ih =>
    rw [batches]
    split
    · next hnil =>
      rw [List.isEmpty_iff.mp hnil]
      rfl
    next hne =>
    have hl : l ≠ [] := fun h => hne (List.isEmpty_iff.mpr h)
    have hlen := congrArg List.length (happend l)
    rw [length_append] at hlen
    have hpos := length_pos_iff.mpr (hprogress l hl)
    rw [flatten_cons, ih (by omega), happend]

theorem mem_batches (h : b ∈ batches next fuel l) : ∃ l', b = (next l').1 := by
  induction fuel generalizing l with
  | zero => cases h
  | succ fuel ih =>
    rw [batches] at h
    split at h
    · cases h
    · rcases mem_cons.mp h with rfl | h
      · exact ⟨l, rfl⟩
      · exact ih h

theorem foldl_batches_induct (all : List α) (Inv : List α → σ → Prop) {f : σ → List α → σ} {bs : List (List α)}
    (hstep : ∀ seen b s, b ∈ bs → seen ++ b <+: all → Inv seen s → Inv (seen ++ b) (f s b)) (seen : List α)
    (hall : seen ++ bs.flatten <+: all) (h : Inv seen s) :
    Inv (seen ++ bs.flatten) (bs.foldl f s) := by
  induction bs generalizing seen s with
  | nil => simpa using h
  | cons b bs ih =>
    rw [flatten_cons, ← append_assoc] at hall ⊢
    rw [foldl_cons]
    refine ih (fun seen c s hc => hstep seen c s (mem_cons_of_mem _ hc)) _ hall ?_
    exact hstep seen b s mem_cons_self ((prefix_append _ _).trans hall) h

end

/-- Bisect batch after batch and record what ran. -/
def runAll (run : List α → σ → Except ε σ) (bs : List (List α)) (s : σ) : σ × List α :=
  bs.foldl (fun s b => bisect (traced run) b.length b s) (s, [])

theorem runAll_fst (run : List α → σ → Except ε σ) (bs : List (List α)) (s : σ) :
    (runAll run bs s).1 = bs.foldl (fun s b => bisect run b.length b s) s := by
  have hgen : ∀ t : σ × List α, (bs.foldl (fun s b => bisect (traced run) b.length b s) t).1 =
      bs.foldl (fun s b => bisect run b.length b s) t.1 := by
    intro t
    induction bs generalizing t with
    | nil => rfl
    | cons b bs ih => rw [foldl_cons, foldl_cons, ih, bisect_traced_fst]
  exact hgen (s, [])

/-- The slices that are left when a slice is halved until it has only good items, or none to halve. -/
inductive Piece (good : α → Prop) : List α → List α → Prop
  | whole {l : List α} (hne : l ≠ []) (hgood : ∀ a ∈ l, good a) : Piece good l l
  | low {l u : List α} (hbad : ∃ a ∈ l, ¬ good a) (hlen : l.length ≠ 1)
      (h : Piece good (l.take (l.length / 2)) u) : Piece good l u
  | high {l u : List α} (hbad : ∃ a ∈ l, ¬ good a) (hlen : l.length ≠ 1)
      (h : Piece good (l.drop (l.length / 2)) u) : Piece good l u

theorem Piece.sublist {good : α → Prop} (h : Piece good l u) : u.Sublist l := by
  induction h with
  | whole hne hgood => exact List.Sublist.refl _
  | low hbad hlen h ih => exact ih.trans (take_sublist _ _)
  | high hbad hlen h ih => exact ih.trans (drop_sublist _ _)

theorem Piece.good {good : α → Prop} (h : Piece good l u) : ∀ a ∈ u, good a := by
  induction h with
  | whole hne hgood => exact hgood
  | low hbad hlen h ih => exact ih
  | high hbad hlen h ih => exact ih

section

variable {run : List α → σ → Except ε σ} (all : List α) (good : α → Prop) (Inv : List α → σ → Prop)

/-- When only slices of good items run, and all pieces do, every good item gets run. -/
theorem bisect_exact (hsound : ∀ seen l s s', seen ++ l <+: all → Inv seen s → run l s = .ok s' →
      (∀ a ∈ l, good a) ∧ Inv (seen ++ l) s')
    (hskip : ∀ seen a s, seen ++ [a] <+: all → Inv seen s → ¬ good a → Inv (seen ++ [a]) s) (seen : List α)
    (hfuel : l.length ≤ fuel) (hall : seen ++ l <+: all)
    (hpiece : ∀ u, Piece good l u → ∀ seen s, seen ++ u <+: all → Inv seen s → ∃ s', run u s = .ok s')
    (h : Inv seen s) : Inv (seen ++ l) (bisect run fuel l s) := by
  induction fuel generalizing seen l s with
  | zero =>
    rw [length_eq_zero_iff.mp (Nat.le_zero.mp hfuel), append_nil]
    exact h
  | succ fuel ih =>
    rw [bisect]
    split
    · next hnil =>
      rw [List.isEmpty_iff.mp hnil, append_nil]
      exact h
    next hne =>
    have hne : l ≠ [] := fun h0 => hne (List.isEmpty_iff.mpr h0)
    split
    · next s' hs' => exact (hsound seen l s s' hall h hs').2
    · next e he =>
      have hbad : ∃ a ∈ l, ¬ good a := by
        by_contra hgood
        obtain ⟨s', hs'⟩ := hpiece l (.whole hne (by simpa using hgood)) seen s hall h
        rw [he] at hs'
        cases hs'
      split
      · next hone =>
        obtain ⟨a, rfl⟩ := length_eq_one_iff.mp hone
        exact hskip seen a s hall h (by simpa using hbad)
      · next hlen =>
        obtain ⟨hsplit, hlow⟩ := halves hall
        obtain ⟨hfuelLow, hfuelHigh⟩ := length_halves hfuel hne hlen
        rw [hsplit]
        exact ih _ hfuelHigh (hsplit ▸ hall) (fun u hu => hpiece u (.high hbad hlen hu))
          (ih seen hfuelLow hlow (fun u hu => hpiece u (.low hbad hlen hu)) h)

end

section

variable {run : List α → σ → Except ε σ} (all : List α) (good : α → Prop)
  (Inv : List α → σ × List α → Prop)

theorem mem_traced {ran : List α} {t : σ × List α} (h : traced run l (s, ran) = .ok t) :
    ∃ s', run l s = .ok s' ∧ t = (s', ran ++ l) := by
  rw [traced] at h
  cases hs : run l s with
  | error e =>
    rw [hs] at h
    cases h
  | ok s' =>
    rw [hs] at h
    cases h
    exact ⟨s', rfl, rfl⟩

theorem bisect_avoids
    (hkeep : ∀ seen l s s', seen ++ l <+: all → Inv seen s → traced run l s = .ok s' → Inv (seen ++ l) s')
    (hskip : ∀ seen a s, seen ++ [a] <+: all → Inv seen s → Inv (seen ++ [a]) s)
    (hstuck : ∀ v, v.Sublist l → a ∈ v → ∀ seen s, seen ++ v <+: all → Inv seen s → ∀ s', traced run v s ≠ .ok s')
    (seen : List α) {s : σ × List α} (hfuel : l.length ≤ fuel) (hall : seen ++ l <+: all) (h : Inv seen s)
    (hs : a ∉ s.2) :
    Inv (seen ++ l) (bisect (traced run) fuel l s) ∧ a ∉ (bisect (traced run) fuel l s).2 := by
  refine bisect_induct l (fun done t => Inv (seen ++ done) t ∧ a ∉ t.2) (fun done v t t' hv hinv hrun => ?_)
    (fun done b t e hb hinv hrun => ?_) [] hfuel (prefix_refl _) ⟨by simpa using h, hs⟩
  · have hpos : (seen ++ done) ++ v <+: all := by
      rw [append_assoc]
      exact ((prefix_append_right_inj seen).mpr hv).trans hall
    have hv' : v.Sublist l := (sublist_append_right done v).trans hv.sublist
    refine ⟨append_assoc seen done v ▸ hkeep _ v t t' hpos hinv.1 hrun, ?_⟩
    have hav : a ∉ v := fun hav => hstuck v hv' hav _ t hpos hinv.1 t' hrun
    obtain ⟨s', -, rfl⟩ := mem_traced hrun
    simp [hinv.2, hav]
  · have hpos : (seen ++ done) ++ [b] <+: all := by
      rw [append_assoc]
      exact ((prefix_append_right_inj seen).mpr hb).trans hall
    exact ⟨append_assoc seen done [b] ▸ hskip _ b t hpos hinv.1, hinv.2⟩

theorem bisect_stuck (hsound : ∀ seen l s s', seen ++ l <+: all → Inv seen s → traced run l s = .ok s' →
      (∀ a ∈ l, good a) ∧ Inv (seen ++ l) s')
    (hskip : ∀ seen a s, seen ++ [a] <+: all → Inv seen s → Inv (seen ++ [a]) s) (hu : Piece good l u) (ha : a ∈ u)
    (hstuck : ∀ v, v.Sublist u → a ∈ v → ∀ seen s, seen ++ v <+: all → Inv seen s → ∀ s', traced run v s ≠ .ok s')
    (hnodup : l.Nodup) (seen : List α) {s : σ × List α} (hfuel : l.length ≤ fuel) (hall : seen ++ l <+: all)
    (h : Inv seen s) (hs : a ∉ s.2) :
    Inv (seen ++ l) (bisect (traced run) fuel l s) ∧ a ∉ (bisect (traced run) fuel l s).2 := by
  have hkeep := fun seen l s s' hall h hrun => (hsound seen l s s' hall h hrun).2
  -- a slice with a bad item fails, so its halves are next
  have hhalves : ∀ {l : List α} {fuel : Nat} {s : σ × List α} {seen : List α}, (∃ b ∈ l, ¬ good b) →
      l.length ≠ 1 → l.length ≤ fuel → seen ++ l <+: all → Inv seen s → ∃ k,
        (l.take (l.length / 2)).length ≤ k ∧ (l.drop (l.length / 2)).length ≤ k ∧
        bisect (traced run) fuel l s = bisect (traced run) k (l.drop (l.length / 2))
          (bisect (traced run) k (l.take (l.length / 2)) s) := by
    intro l fuel s seen hbad hlen hfuel hall h
    obtain ⟨b, hb, hnb⟩ := hbad
    have hne := ne_nil_of_mem hb
    obtain ⟨k, rfl⟩ := Nat.exists_eq_add_one.mpr (Nat.lt_of_lt_of_le (length_pos_iff.mpr hne) hfuel)
    obtain ⟨hlow, hhigh⟩ := length_halves hfuel hne hlen
    refine ⟨k, hlow, hhigh, ?_⟩
    rw [bisect, isEmpty_eq_false_iff.mpr hne]
    cases hrun : traced run l s with
    | ok s' => exact absurd ((hsound seen l s s' hall h hrun).1 b hb) hnb
    | error e => simp [hlen]
  have hdisj : ∀ {l : List α}, l.Nodup → ∀ x ∈ l.take (l.length / 2), ∀ y ∈ l.drop (l.length / 2), x ≠ y :=
    fun {l} hnodup => (nodup_append.mp ((take_append_drop (l.length / 2) l).symm ▸ hnodup)).2.2
  induction hu generalizing seen s fuel with
  | whole hne hgood => exact bisect_avoids all Inv hkeep hskip hstuck seen hfuel hall h hs
  | @low l u hbad hlen hu ih =>
    obtain ⟨k, hfuelLow, hfuelHigh, hstep⟩ := hhalves hbad hlen hfuel hall h
    obtain ⟨hsplit, hlow⟩ := halves hall
    have hmem : a ∉ l.drop (l.length / 2) := fun hmem => hdisj hnodup a (hu.sublist.subset ha) a hmem rfl
    rw [hstep, hsplit]
    obtain ⟨hinv, hran⟩ := ih ha hstuck (hnodup.sublist (take_sublist _ _)) seen hfuelLow hlow h hs
    exact bisect_avoids all Inv hkeep hskip (fun v hv hav => absurd (hv.subset hav) hmem) _
      hfuelHigh (hsplit ▸ hall) hinv hran
  | @high l u hbad hlen hu ih =>
    obtain ⟨k, hfuelLow, hfuelHigh, hstep⟩ := hhalves hbad hlen hfuel hall h
    obtain ⟨hsplit, hlow⟩ := halves hall
    have hmem : a ∉ l.take (l.length / 2) := fun hmem => hdisj hnodup a hmem a (hu.sublist.subset ha) rfl
    rw [hstep, hsplit]
    obtain ⟨hinv, hran⟩ := bisect_avoids all Inv hkeep hskip
      (fun v hv hav => absurd (hv.subset hav) hmem) seen hfuelLow hlow h hs
    exact ih ha hstuck (hnodup.sublist (drop_sublist _ _)) _ hfuelHigh (hsplit ▸ hall) hinv hran

end

variable {run : List α → σ → Except ε σ} {bs : List (List α)} (good : α → Prop)
  (Inv : List α → σ × List α → Prop)

variable
    (hsound : ∀ seen l s s', seen ++ l <+: bs.flatten → Inv seen s → traced run l s = .ok s' → (∀ a ∈ l, good a) ∧ Inv (seen ++ l) s')

include hsound

theorem runAll_exact (hskip : ∀ seen a s, seen ++ [a] <+: bs.flatten → Inv seen s → ¬ good a → Inv (seen ++ [a]) s)
    (hpiece : ∀ b ∈ bs, ∀ u, Piece good b u → ∀ seen s, seen ++ u <+: bs.flatten → Inv seen s →
      ∃ s', traced run u s = .ok s')
    (h : Inv [] (s, [])) : Inv bs.flatten (runAll run bs s) :=
  foldl_batches_induct bs.flatten Inv
    (fun seen b _ hb hall hinv =>
      bisect_exact bs.flatten good Inv hsound hskip seen (Nat.le_refl _) hall (hpiece b hb) hinv)
    [] (prefix_refl _) h

theorem runAll_stuck (hskip : ∀ seen a s, seen ++ [a] <+: bs.flatten → Inv seen s → Inv (seen ++ [a]) s) (hb : b ∈ bs)
    (hu : Piece good b u) (ha : a ∈ u)
    (hstuck : ∀ v, v.Sublist u → a ∈ v → ∀ seen s, seen ++ v <+: bs.flatten → Inv seen s →
      ∀ s', traced run v s ≠ .ok s')
    (hnodup : bs.flatten.Nodup) (h : Inv [] (s, [])) : a ∉ (runAll run bs s).2 := by
  have hkeep := fun seen l s s' hall h hrun => (hsound seen l s s' hall h hrun).2
  obtain ⟨hbs, hdisj⟩ := nodup_flatten.mp hnodup
  refine (foldl_batches_induct bs.flatten (fun seen t => Inv seen t ∧ a ∉ t.2)
    (fun seen c t hc hall hinv => ?_) [] (prefix_refl _) ⟨h, by simp⟩).2
  by_cases hac : a ∈ c
  · have hcb : c = b := by
      by_contra hne
      have hsymm : Std.Symm (@List.Disjoint α) := ⟨fun _ _ hd _ hx hy => hd hy hx⟩
      exact (hdisj.forall hc hb hne) hac (hu.sublist.subset ha)
    subst hcb
    exact bisect_stuck bs.flatten good Inv hsound hskip hu ha hstuck (hbs c hc) seen (Nat.le_refl _)
      hall hinv.1 hinv.2
  · exact bisect_avoids bs.flatten Inv hkeep hskip
      (fun v hv hav => absurd (hv.subset hav) hac) seen (Nat.le_refl _) hall hinv.1 hinv.2

end Onnxsim.Lib.Bisection
