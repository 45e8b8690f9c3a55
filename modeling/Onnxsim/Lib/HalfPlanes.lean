import Mathlib.Analysis.Convex.Hull
import Mathlib.Data.Set.Finite.Lemmas
import Mathlib.Tactic.Linarith

namespace Onnxsim.Lib.HalfPlanes

/-- The points `(x, y)` with `a * x + b * y ≤ c`. -/
structure HalfPlane (𝕜 : Type) where
  a : 𝕜
  b : 𝕜
  c : 𝕜

section

variable {𝕜 : Type} [Field 𝕜] [LinearOrder 𝕜] (h k : HalfPlane 𝕜)

def along (v : 𝕜 × 𝕜) : 𝕜 := h.a * v.1 + h.b * v.2

def Inside (p : 𝕜 × 𝕜) : Prop := along h p ≤ h.c

def Tight (p : 𝕜 × 𝕜) : Prop := along h p = h.c

def Within (hs : List (HalfPlane 𝕜)) (p : 𝕜 × 𝕜) : Prop := ∀ h ∈ hs, Inside h p

def det : 𝕜 := h.a * k.b - h.b * k.a

/-- Where the two boundary lines cross, by Cramer's rule. -/
def meet : 𝕜 × 𝕜 := ((h.c * k.b - h.b * k.c) / det h k, (h.a * k.c - h.c * k.a) / det h k)

/-- The points of the polygon on two boundary lines that cross. -/
def corners (hs : List (HalfPlane 𝕜)) : Set (𝕜 × 𝕜) :=
  {q | Within hs q ∧ ∃ h ∈ hs, ∃ k ∈ hs, det h k ≠ 0 ∧ Tight h q ∧ Tight k q}

def Bounded (hs : List (HalfPlane 𝕜)) : Prop := ∀ v : 𝕜 × 𝕜, v ≠ 0 → ∃ h ∈ hs, 0 < along h v

end

variable {𝕜 : Type} [Field 𝕜] {h k : HalfPlane 𝕜} {hs : List (HalfPlane 𝕜)} {p q v : 𝕜 × 𝕜} {s t : 𝕜}

theorem along_add_smul : along h (p + t • v) = along h p + t * along h v := by
  simp only [along, Prod.fst_add, Prod.snd_add, Prod.smul_fst, Prod.smul_snd, smul_eq_mul]
  ring

theorem along_neg : along h (-v) = -along h v := by
  simp only [along, Prod.fst_neg, Prod.snd_neg]
  ring

theorem det_swap : det k h = -det h k := by
  rw [det, det]
  ring

theorem eq_meet_of_tight (hdet : det h k ≠ 0) (hh : Tight h p) (hk : Tight k p) : p = meet h k := by
  rw [Tight, along] at hh hk
  have hfst : p.1 * det h k = h.c * k.b - h.b * k.c := by
    rw [det]
    linear_combination k.b * hh - h.b * hk
  have hsnd : p.2 * det h k = h.a * k.c - h.c * k.a := by
    rw [det]
    linear_combination h.a * hk - k.a * hh
  exact Prod.ext (eq_div_of_mul_eq hdet hfst) (eq_div_of_mul_eq hdet hsnd)

/-- The direction of the boundary line of `h`. -/
def direction (h : HalfPlane 𝕜) : 𝕜 × 𝕜 := (-h.b, h.a)

theorem along_direction : along k (direction h) = det h k := by
  rw [along, direction, det]
  ring

theorem along_direction_self : along h (direction h) = 0 := by
  rw [along_direction, det]
  ring

variable [LinearOrder 𝕜] [IsStrictOrderedRing 𝕜]

theorem mem_segment_of_opposite (ht : 0 ≤ t) (hback : 0 ≤ s) : p ∈ segment 𝕜 (p + t • v) (p + s • -v) := by
  obtain hzero | hpos := (add_nonneg ht hback).eq_or_lt'
  · have htz : t = 0 := by linarith
    rw [htz, zero_smul, add_zero]
    exact left_mem_segment 𝕜 p _
  · have hne : t + s ≠ 0 := hpos.ne'
    refine ⟨s / (t + s), t / (t + s), div_nonneg hback hpos.le, div_nonneg ht hpos.le, ?_, ?_⟩
    · rw [← add_div, add_comm s t, div_self hne]
    · ext <;>
      · simp only [Prod.fst_add, Prod.snd_add, Prod.smul_fst, Prod.smul_snd, Prod.fst_neg, Prod.snd_neg, smul_eq_mul]
        field_simp
        ring

/-- The farthest step in the direction `v` ends on the boundary of a half-plane that `v` leaves. -/
theorem exists_farthest (hp : Within hs p) (hv : ∃ h ∈ hs, 0 < along h v) :
    ∃ t : 𝕜, 0 ≤ t ∧ Within hs (p + t • v) ∧ ∃ h ∈ hs, 0 < along h v ∧ Tight h (p + t • v) := by
  have hfinite : {h | h ∈ hs ∧ 0 < along h v}.Finite := hs.finite_toSet.subset fun h hh => hh.1
  obtain ⟨h, ⟨hmem, hpos⟩, hmin⟩ := Set.exists_min_image _ (fun h => (h.c - along h p) / along h v) hfinite hv
  have hnonneg : 0 ≤ (h.c - along h p) / along h v := div_nonneg (sub_nonneg.mpr (hp h hmem)) hpos.le
  refine ⟨(h.c - along h p) / along h v, hnonneg, ?_, h, hmem, hpos, ?_⟩
  · intro k hk
    rw [Inside, along_add_smul]
    obtain hneg | hkpos := le_or_gt (along k v) 0
    · have hstep := mul_nonpos_of_nonneg_of_nonpos hnonneg hneg
      have hin : along k p ≤ k.c := hp k hk
      linarith
    · have hle := (le_div_iff₀ hkpos).mp (hmin k ⟨hk, hkpos⟩)
      linarith
  · rw [Tight, along_add_smul, div_mul_cancel₀ _ hpos.ne']
    ring

/-- A point lies between two others of the polygon on lines that cross the direction. -/
theorem exists_between (hbounded : Bounded hs) (hv : v ≠ 0) (hp : Within hs p) :
    ∃ q r, p ∈ segment 𝕜 q r ∧ ∀ u, u = q ∨ u = r →
      (∃ t : 𝕜, u = p + t • v) ∧ Within hs u ∧ ∃ h ∈ hs, along h v ≠ 0 ∧ Tight h u := by
  obtain ⟨t, ht, hwithin, h, hh, hpos, htight⟩ := exists_farthest hp (hbounded v hv)
  obtain ⟨s, hback, hwithin', k, hk, hpos', htight'⟩ := exists_farthest hp (hbounded (-v) (neg_ne_zero.mpr hv))
  rw [along_neg] at hpos'
  refine ⟨p + t • v, p + s • -v, mem_segment_of_opposite ht hback, ?_⟩
  rintro u (rfl | rfl)
  · exact ⟨⟨t, rfl⟩, hwithin, h, hh, hpos.ne', htight⟩
  · refine ⟨⟨-s, by rw [neg_smul, smul_neg]⟩, hwithin', k, hk, ?_, htight'⟩
    linarith

omit [LinearOrder 𝕜] [IsStrictOrderedRing 𝕜] in
theorem direction_ne_zero (h : HalfPlane 𝕜) (hne : along h v ≠ 0) : direction h ≠ 0 := by
  intro hzero
  have hb : h.b = 0 := neg_eq_zero.mp (congrArg Prod.fst hzero)
  have ha : h.a = 0 := congrArg Prod.snd hzero
  exact hne (by rw [along, ha, hb, zero_mul, zero_mul, add_zero])

theorem mem_hull_of_tight (hbounded : Bounded hs) (hp : Within hs p) (hh : h ∈ hs) (hne : along h v ≠ 0) (htight : Tight h p) :
    p ∈ convexHull 𝕜 (corners hs) := by
  obtain ⟨q, r, hseg, hends⟩ := exists_between hbounded (direction_ne_zero h hne) hp
  have hcorner : ∀ u, u = q ∨ u = r → u ∈ convexHull 𝕜 (corners hs) := by
    intro u hu
    obtain ⟨⟨t, ht⟩, hwithin, k, hk, hcross, hktight⟩ := hends u hu
    rw [along_direction] at hcross
    have hstays : Tight h u := by
      rw [Tight, ht, along_add_smul, along_direction_self, mul_zero, add_zero]
      exact htight
    exact subset_convexHull 𝕜 _ ⟨hwithin, h, hh, k, hk, hcross, hstays, hktight⟩
  exact (convex_convexHull 𝕜 _).segment_subset (hcorner q (.inl rfl)) (hcorner r (.inr rfl)) hseg

theorem mem_hull_of_within (hbounded : Bounded hs) (hp : Within hs p) : p ∈ convexHull 𝕜 (corners hs) := by
  have hv : ((1, 0) : 𝕜 × 𝕜) ≠ 0 := fun h => one_ne_zero (congrArg Prod.fst h)
  obtain ⟨q, r, hseg, hends⟩ := exists_between hbounded hv hp
  have hend : ∀ u, u = q ∨ u = r → u ∈ convexHull 𝕜 (corners hs) := by
    intro u hu
    obtain ⟨-, hwithin, h, hh, hne, htight⟩ := hends u hu
    exact mem_hull_of_tight hbounded hwithin hh hne htight
  exact (convex_convexHull 𝕜 _).segment_subset (hend q (.inl rfl)) (hend r (.inr rfl)) hseg

end Onnxsim.Lib.HalfPlanes
