import Mathlib

namespace Onnxsim.Lib.BestFit

open List

abbrev Range := Int × Int

def Apart (a b : Range) : Prop := a.2 ≤ b.1 ∨ b.2 ≤ a.1

def rangeLe (a b : Range) : Prop := a.1 < b.1 ∨ a.1 = b.1 ∧ a.2 ≤ b.2

instance : DecidableRel rangeLe := fun _ _ => inferInstanceAs (Decidable (_ ∨ _))

structure Search where
  bestOffset : Int := -1
  bestGap : Int := -1
  cursor : Int := 0

/-- One range to stay clear of: the gap in front of it is taken if it fits and is the smallest yet. -/
def Search.step (size : Int) (s : Search) (b : Range) : Search :=
  if size ≤ b.1 - s.cursor ∧ (s.bestGap < 0 ∨ b.1 - s.cursor < s.bestGap) then
    ⟨s.cursor, b.1 - s.cursor, max s.cursor b.2⟩
  else { s with cursor := max s.cursor b.2 }

/-- The smallest gap between the ranges in `blocking` that holds `size` positions, or the position after
all of them. -/
def bestFit (size : Int) (blocking : List Range) : Int :=
  let s := (blocking.insertionSort rangeLe).foldl (Search.step size) {}
  if s.bestOffset < 0 then s.cursor else s.bestOffset

structure SearchInv (size : Int) (s : Search) (done rest : List Range) : Prop where
  nonneg : 0 ≤ s.cursor
  cursor : ∀ b ∈ done, b.2 ≤ s.cursor
  best : 0 ≤ s.bestOffset → (∀ b ∈ done, b.2 ≤ s.bestOffset ∨ s.bestOffset + size ≤ b.1) ∧
    ∀ b ∈ rest, s.bestOffset + size ≤ b.1

variable {rest done ranges : List Range} {s : Search} {size x : Int} {b : Range}

theorem SearchInv.step (hsorted : ∀ c ∈ rest, b.1 ≤ c.1) (h : SearchInv size s done (b :: rest)) :
    SearchInv size (s.step size b) (done ++ [b]) rest := by
  have hdone : ∀ c ∈ done ++ [b], c.2 ≤ max s.cursor b.2 := by
    intro c hc
    rcases mem_append.mp hc with hc | hc
    · exact (h.cursor c hc).trans (le_max_left _ _)
    · rw [mem_singleton.mp hc]
      exact le_max_right _ _
  have hcursor : 0 ≤ max s.cursor b.2 := h.nonneg.trans (le_max_left _ _)
  rw [Search.step]
  split
  · next hfit =>
    refine ⟨hcursor, hdone, fun _ => ⟨fun c hc => ?_, fun c hc => ?_⟩⟩
    · rcases mem_append.mp hc with hc | hc
      · exact .inl (h.cursor c hc)
      · rw [mem_singleton.mp hc]
        refine .inr ?_
        change s.cursor + size ≤ b.1
        omega
    · have hc' := hsorted c hc
      change s.cursor + size ≤ c.1
      omega
  · refine ⟨hcursor, hdone, fun hbest => ?_⟩
    obtain ⟨hleft, hright⟩ := h.best hbest
    refine ⟨fun c hc => ?_, fun c hc => hright c (mem_cons_of_mem _ hc)⟩
    rcases mem_append.mp hc with hc | hc
    · exact hleft c hc
    · rw [mem_singleton.mp hc]
      exact .inr (hright b mem_cons_self)

theorem foldl_inv (hsorted : rest.Pairwise fun a b => a.1 ≤ b.1) (h : SearchInv size s done rest) :
    SearchInv size (rest.foldl (Search.step size) s) (done ++ rest) [] := by
  induction rest generalizing s done with
  | nil => simpa using h
  | cons b rest ih =>
    obtain ⟨hb, hrest⟩ := pairwise_cons.mp hsorted
    rw [append_cons]
    exact ih hrest (h.step hb)

theorem sorted_starts (blocking : List Range) :
    (blocking.insertionSort rangeLe).Pairwise fun a b => a.1 ≤ b.1 := by
  have htotal : Std.Total rangeLe := ⟨fun a b => by simp only [rangeLe]; omega⟩
  have htrans : IsTrans Range rangeLe := ⟨fun a b c hab hbc => by simp only [rangeLe] at *; omega⟩
  refine (pairwise_insertionSort rangeLe blocking).imp fun h => ?_
  simp only [rangeLe] at h
  omega

theorem bestFit_apart (size : Int) (blocking : List Range) :
    0 ≤ bestFit size blocking ∧
      ∀ b ∈ blocking, Apart (bestFit size blocking, bestFit size blocking + size) b := by
  have hinv : SearchInv size ((blocking.insertionSort rangeLe).foldl (Search.step size) {})
      ([] ++ blocking.insertionSort rangeLe) [] :=
    foldl_inv (sorted_starts blocking) ⟨le_refl _, by simp, fun h => absurd h (by decide)⟩
  rw [nil_append] at hinv
  have hmem : ∀ b ∈ blocking, b ∈ blocking.insertionSort rangeLe :=
    fun b hb => (perm_insertionSort rangeLe blocking).mem_iff.mpr hb
  rw [bestFit]
  split
  · exact ⟨hinv.nonneg, fun b hb => .inr (hinv.cursor b (hmem b hb))⟩
  · next hbest =>
    have h0 := not_lt.mp hbest
    refine ⟨h0, fun b hb => ?_⟩
    rcases (hinv.best h0).1 b (hmem b hb) with h | h
    · exact .inr h
    · exact .inl h

/-- Positions a search can answer with: the start, or the end of a range it has passed. -/
def AtEnd (ranges : List Range) (x : Int) : Prop := x = 0 ∨ ∃ b ∈ ranges, x = b.2

theorem AtEnd.max_end (hx : AtEnd ranges x) (hb : b ∈ ranges) : AtEnd ranges (max x b.2) := by
  rcases max_choice x b.2 with h | h
  · rwa [h]
  · exact .inr ⟨b, hb, h⟩

theorem foldl_atEnd (size : Int) (hsub : ∀ b ∈ rest, b ∈ ranges) (hcursor : AtEnd ranges s.cursor)
    (hbest : s.bestOffset < 0 ∨ AtEnd ranges s.bestOffset) :
    let t := rest.foldl (Search.step size) s
    AtEnd ranges t.cursor ∧ (t.bestOffset < 0 ∨ AtEnd ranges t.bestOffset) := by
  induction rest generalizing s with
  | nil => exact ⟨hcursor, hbest⟩
  | cons b rest ih =>
    have hb : b ∈ ranges := hsub b mem_cons_self
    apply ih fun c hc => hsub c (mem_cons_of_mem _ hc)
    · rw [Search.step]
      split <;> exact hcursor.max_end hb
    · rw [Search.step]
      split
      · exact .inr hcursor
      · exact hbest

theorem bestFit_atEnd (size : Int) (blocking : List Range) : AtEnd blocking (bestFit size blocking) := by
  have hsub : ∀ b ∈ blocking.insertionSort rangeLe, b ∈ blocking := fun b hb =>
    (perm_insertionSort rangeLe blocking).mem_iff.mp hb
  obtain ⟨hcursor, hbest⟩ := foldl_atEnd size (s := {}) hsub (.inl rfl) (.inl (by decide))
  rw [bestFit]
  split
  · exact hcursor
  · next h => exact hbest.resolve_left h

/-- The positions that a list of ranges covers. -/
noncomputable def covered (ranges : List Range) : Finset Int := ranges.foldr (fun r s => Finset.Ico r.1 r.2 ∪ s) ∅

theorem mem_covered : x ∈ covered ranges ↔ ∃ r ∈ ranges, r.1 ≤ x ∧ x < r.2 := by
  induction ranges with
  | nil => simp [covered]
  | cons r ranges ih =>
    have hcons : covered (r :: ranges) = Finset.Ico r.1 r.2 ∪ covered ranges := rfl
    rw [hcons, Finset.mem_union, ih, Finset.mem_Ico, exists_mem_cons_iff]

theorem sum_le_card_covered (h : ranges.Pairwise Apart) :
    (ranges.map fun r => r.2 - r.1).sum ≤ (covered ranges).card := by
  induction ranges with
  | nil => simp
  | cons r ranges ih =>
    obtain ⟨hr, hrest⟩ := pairwise_cons.mp h
    have hdisjoint : Disjoint (Finset.Ico r.1 r.2) (covered ranges) := by
      rw [Finset.disjoint_left]
      intro x hx hx'
      obtain ⟨q, hq, hlo, hhi⟩ := mem_covered.mp hx'
      have hrange := Finset.mem_Ico.mp hx
      rcases hr q hq with hapart | hapart <;> omega
    have hcard : (covered (r :: ranges)).card = (Finset.Ico r.1 r.2).card + (covered ranges).card :=
      Finset.card_union_of_disjoint hdisjoint
    have hrange := Int.card_Ico r.1 r.2
    have htail := ih hrest
    rw [map_cons, sum_cons, hcard]
    omega

theorem sum_le_of_apart {room : Int} (hroom : 0 ≤ room) (h : ranges.Pairwise Apart)
    (hin : ∀ r ∈ ranges, 0 ≤ r.1 ∧ r.2 ≤ room) :
    (ranges.map fun r => r.2 - r.1).sum ≤ room := by
  have hsub : covered ranges ⊆ Finset.Ico 0 room := by
    intro x hx
    obtain ⟨r, hr, hlo, hhi⟩ := mem_covered.mp hx
    have hbounds := hin r hr
    exact Finset.mem_Ico.mpr ⟨by omega, by omega⟩
  have hcard := Finset.card_le_card hsub
  rw [Int.card_Ico] at hcard
  have hsum := sum_le_card_covered h
  omega

end Onnxsim.Lib.BestFit
