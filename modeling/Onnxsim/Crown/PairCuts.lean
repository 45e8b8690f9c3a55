import Mathlib.Data.Matrix.Mul
import Onnxsim.Lib.HalfPlanes

namespace Onnxsim.Crown.PairCuts

open List Lib.HalfPlanes

section

variable {𝕜 : Type} [Field 𝕜] [LinearOrder 𝕜]

/-- The bounds of the inputs of two Relus, of their sum and of their difference. -/
structure PairBounds (𝕜 : Type) where
  l1 : 𝕜
  u1 : 𝕜
  l2 : 𝕜
  u2 : 𝕜
  ls : 𝕜
  us : 𝕜
  ld : 𝕜
  ud : 𝕜
deriving DecidableEq

def cons (b : PairBounds 𝕜) : List (HalfPlane 𝕜) :=
  [⟨-1, 0, -b.l1⟩, ⟨1, 0, b.u1⟩, ⟨0, -1, -b.l2⟩, ⟨0, 1, b.u2⟩, ⟨1, 1, b.us⟩, ⟨-1, -1, -b.ls⟩, ⟨1, -1, b.ud⟩, ⟨-1, 1, -b.ld⟩]

def lines (b : PairBounds 𝕜) : List (HalfPlane 𝕜) := cons b ++ [⟨1, 0, 0⟩, ⟨0, 1, 0⟩]

/-- `max(1, np.abs(xs).max())`. -/
def scaleOf (xs : List 𝕜) : 𝕜 := xs.foldr (fun x m => max |x| m) 1

/-- `itertools.combinations`. -/
def combinations {α : Type} : Nat → List α → List (List α)
  | 0, _ => [[]]
  | _ + 1, [] => []
  | r + 1, x :: xs => (combinations r xs).map (x :: ·) ++ combinations (r + 1) xs

def candidate (b : PairBounds 𝕜) : List (HalfPlane 𝕜) → Option (𝕜 × 𝕜)
  | [h, k] =>
    let slack := 1 / 10 ^ 9 * scaleOf ((cons b).map HalfPlane.c)
    if |det h k| < 1 / 10 ^ 12 then none
    else if (cons b).all fun c => decide (along c (meet h k) ≤ c.c + slack) then some (meet h k) else none
  | _ => none

/-- `_pair_polygon`: equal points are kept once. -/
def pairPolygon (b : PairBounds 𝕜) : List (𝕜 × 𝕜) :=
  ((combinations 2 (lines b)).filterMap (candidate b)).eraseDups

abbrev Vec4 (𝕜 : Type) := Fin 4 → 𝕜

def lift (z : 𝕜 × 𝕜) : Vec4 𝕜 := ![z.1, z.2, max z.1 0, max z.2 0]

/-- What `np.linalg` computes, the third singular value with the last singular vector and the length of a vector, and
the rounding of the tags. -/
structure Numerics (𝕜 : Type) where
  svd : List (Vec4 𝕜) → 𝕜 × Vec4 𝕜
  norm : Vec4 𝕜 → 𝕜
  round : 𝕜 → 𝕜

/-- The inequality `n · p ≤ d`. -/
structure Cut (𝕜 : Type) where
  n : Vec4 𝕜
  d : 𝕜

/-- `np.max(pts @ n)`. -/
def support (n : Vec4 𝕜) (pts : List (Vec4 𝕜)) : 𝕜 := (pts.map fun p => n ⬝ᵥ p).max?.getD 0

variable (num : Numerics 𝕜)

/-- The normal of the hyperplane through four points, when all points lie on one side of it. -/
def normalOf (pts : List (Vec4 𝕜)) (scale : 𝕜) (idx : List (Vec4 𝕜)) : Option (Vec4 𝕜) :=
  let found := num.svd (idx.tail.map fun p => p - idx.headD 0)
  let tol := 1 / 10 ^ 9 * scale
  let c := (idx.map fun p => found.2 ⬝ᵥ p).sum / idx.length
  if found.1 ≤ tol then none
  else if pts.all fun p => decide (found.2 ⬝ᵥ p ≤ c + tol) then some found.2
  else if pts.all fun p => decide (c - tol ≤ found.2 ⬝ᵥ p) then some (-found.2)
  else none

def facetOf (pts : List (Vec4 𝕜)) (scale : 𝕜) (idx : List (Vec4 𝕜)) : Option (Cut 𝕜) :=
  (normalOf num pts scale idx).bind fun found =>
    let n : Vec4 𝕜 := fun i => found i / num.norm found
    if max |n 0| |n 2| < 1 / 10 ^ 9 ∨ max |n 1| |n 3| < 1 / 10 ^ 9 then none else some ⟨n, support n pts⟩

def tag (f : Cut 𝕜) : List 𝕜 := (List.ofFn f.n ++ [f.d]).map num.round

/-- The facets with a tag that was not seen before, each with a margin. -/
def collect (pts : List (Vec4 𝕜)) (scale : 𝕜) : List (List 𝕜) → List (List (Vec4 𝕜)) → List (Cut 𝕜)
  | _, [] => []
  | seen, idx :: rest =>
    match facetOf num pts scale idx with
    | none => collect pts scale seen rest
    | some f =>
      if tag num f ∈ seen then collect pts scale seen rest
      else ⟨f.n, f.d + 1 / 10 ^ 9 * scale⟩ :: collect pts scale (tag num f :: seen) rest

def facets (b : PairBounds 𝕜) : List (Cut 𝕜) :=
  let q := pairPolygon b
  let pts := q.map lift
  let scale := scaleOf (pts.flatMap List.ofFn)
  if q.length < 4 then [] else collect num pts scale [] (combinations 4 pts)

/-- The arguments of `_pair_facets`, of which the last four may be left out. -/
structure Call (𝕜 : Type) where
  l1 : 𝕜
  u1 : 𝕜
  l2 : 𝕜
  u2 : 𝕜
  ls : Option 𝕜
  us : Option 𝕜
  ld : Option 𝕜
  ud : Option 𝕜

/-- The bounds that a call is about, unless an assertion fails. -/
def Call.bounds (c : Call 𝕜) : Option (PairBounds 𝕜) :=
  match c.ls, c.us, c.ld, c.ud with
  | none, _, _, _ => some ⟨c.l1, c.u1, c.l2, c.u2, c.l1 + c.l2, c.u1 + c.u2, c.l1 - c.u2, c.u1 - c.l2⟩
  | some ls, some us, some ld, some ud => some ⟨c.l1, c.u1, c.l2, c.u2, ls, us, ld, ud⟩
  | some _, _, _, _ => none

abbrev FacetCache (𝕜 : Type) := List (PairBounds 𝕜 × List (Cut 𝕜))

/-- `_pair_facets`, with the cache after it. -/
def pairFacets (cache : FacetCache 𝕜) (c : Call 𝕜) : Option (List (Cut 𝕜) × FacetCache 𝕜) :=
  c.bounds.map fun b =>
    match cache.lookup b with
    | some out => (out, cache)
    | none => (facets num b, (b, facets num b) :: cache)

def cacheAfter (cache : FacetCache 𝕜) (c : Call 𝕜) : FacetCache 𝕜 := ((pairFacets num cache c).map Prod.snd).getD cache

/-- The cast to float32 and the next larger float32. -/
structure SinglePrecision (𝕜 : Type) [LinearOrder 𝕜] where
  cast : 𝕜 → 𝕜
  next : 𝕜 → 𝕜
  le_next : ∀ x, cast x < x → x ≤ next (cast x)

variable (F : SinglePrecision 𝕜)

def up32 (x : 𝕜) : 𝕜 := if F.cast x < x then F.next (F.cast x) else F.cast x

def facetF32 (mags : Vec4 𝕜) (f : Cut 𝕜) : Cut 𝕜 :=
  let n32 : Vec4 𝕜 := fun j => F.cast (f.n j)
  let shift := ∑ j, |f.n j - n32 j| * mags j
  ⟨n32, up32 F (f.d + shift + 4 * (1 / (2 : ℕ) ^ 52) * (|f.d| + shift))⟩

/-- `_facets_f32`. -/
def facetsF32 (mags : Vec4 𝕜) (fs : List (Cut 𝕜)) : List (Cut 𝕜) := fs.map (facetF32 F mags)

/-- The inputs that the bounds allow. -/
structure Feasible (b : PairBounds 𝕜) (z : 𝕜 × 𝕜) : Prop where
  lower1 : b.l1 ≤ z.1
  upper1 : z.1 ≤ b.u1
  lower2 : b.l2 ≤ z.2
  upper2 : z.2 ≤ b.u2
  lowerSum : b.ls ≤ z.1 + z.2
  upperSum : z.1 + z.2 ≤ b.us
  lowerDiff : b.ld ≤ z.1 - z.2
  upperDiff : z.1 - z.2 ≤ b.ud

def Cut.Holds (f : Cut 𝕜) (p : Vec4 𝕜) : Prop := f.n ⬝ᵥ p ≤ f.d

variable {α : Type} {x y : α} {xs : List α}

theorem singleton_mem_combinations (hx : x ∈ xs) : [x] ∈ combinations 1 xs := by
  induction xs with
  | nil => cases hx
  | cons a xs ih =>
    rw [combinations, mem_append]
    obtain rfl | hrest := mem_cons.mp hx
    · have hnil : [] ∈ combinations 0 xs := by simp [combinations]
      exact .inl (List.mem_map_of_mem hnil)
    · exact .inr (ih hrest)

theorem pair_mem_combinations (hx : x ∈ xs) (hy : y ∈ xs) (hne : x ≠ y) :
    [x, y] ∈ combinations 2 xs ∨ [y, x] ∈ combinations 2 xs := by
  induction xs with
  | nil => cases hx
  | cons a xs ih =>
    rw [combinations, mem_append, mem_append]
    obtain rfl | hx' := mem_cons.mp hx
    · have hy' : y ∈ xs := (mem_cons.mp hy).resolve_left (Ne.symm hne)
      exact .inl (.inl (List.mem_map_of_mem (singleton_mem_combinations hy')))
    · obtain rfl | hy' := mem_cons.mp hy
      · exact .inr (.inl (List.mem_map_of_mem (singleton_mem_combinations hx')))
      · exact (ih hx' hy').imp .inr .inr

variable {b : PairBounds 𝕜} {h k : HalfPlane 𝕜} {z q : 𝕜 × 𝕜}

def flip (h : HalfPlane 𝕜) : HalfPlane 𝕜 := ⟨-h.a, -h.b, -h.c⟩

/-- The part of the polygon on one side of each axis, where the Relus are linear. -/
def cell (b : PairBounds 𝕜) (pos1 pos2 : Bool) : List (HalfPlane 𝕜) :=
  cons b ++ [if pos1 then flip ⟨1, 0, 0⟩ else ⟨1, 0, 0⟩, if pos2 then flip ⟨0, 1, 0⟩ else ⟨0, 1, 0⟩]

def Integral (h : HalfPlane 𝕜) : Prop := ∃ m n : ℤ, h.a = m ∧ h.b = n

omit [LinearOrder 𝕜] in
theorem integral_of_mem_lines (h : HalfPlane 𝕜) (hh : h ∈ lines b) : Integral h := by
  simp only [lines, cons, mem_append, mem_cons, not_mem_nil, or_false] at hh
  obtain (rfl | rfl | rfl | rfl | rfl | rfl | rfl | rfl) | rfl | rfl := hh
  · exact ⟨-1, 0, by simp, by simp⟩
  · exact ⟨1, 0, by simp, by simp⟩
  · exact ⟨0, -1, by simp, by simp⟩
  · exact ⟨0, 1, by simp, by simp⟩
  · exact ⟨1, 1, by simp, by simp⟩
  · exact ⟨-1, -1, by simp, by simp⟩
  · exact ⟨1, -1, by simp, by simp⟩
  · exact ⟨-1, 1, by simp, by simp⟩
  · exact ⟨1, 0, by simp, by simp⟩
  · exact ⟨0, 1, by simp, by simp⟩

theorem one_le_scaleOf (xs : List 𝕜) : 1 ≤ scaleOf xs := by
  induction xs with
  | nil => exact le_rfl
  | cons x xs ih => exact ih.trans (le_max_right _ _)

variable [IsStrictOrderedRing 𝕜]

theorem one_le_abs_det (hh : Integral h) (hk : Integral k) (hdet : det h k ≠ 0) : 1 ≤ |det h k| := by
  obtain ⟨m, n, hm, hn⟩ := hh
  obtain ⟨m', n', hm', hn'⟩ := hk
  have hcast : det h k = ((m * n' - n * m' : ℤ) : 𝕜) := by
    rw [det, hm, hn, hm', hn']
    push_cast
    ring
  have hne : m * n' - n * m' ≠ 0 := by
    intro hzero
    exact hdet (by rw [hcast, hzero, Int.cast_zero])
  rw [hcast, ← Int.cast_abs, ← Int.cast_one, Int.cast_le]
  exact Int.one_le_abs hne

theorem within_of_feasible (hz : Feasible b z) : Within (cons b) z := by
  intro h hh
  simp only [cons, mem_cons, not_mem_nil, or_false] at hh
  obtain rfl | rfl | rfl | rfl | rfl | rfl | rfl | rfl := hh <;> simp only [Inside, along]
  · linarith [hz.lower1]
  · linarith [hz.upper1]
  · linarith [hz.lower2]
  · linarith [hz.upper2]
  · linarith [hz.upperSum]
  · linarith [hz.lowerSum]
  · linarith [hz.upperDiff]
  · linarith [hz.lowerDiff]

theorem mem_pairPolygon (hq : Within (cons b) q) (hh : h ∈ lines b) (hk : k ∈ lines b) (hdet : det h k ≠ 0)
    (hht : Tight h q) (hkt : Tight k q) : q ∈ pairPolygon b := by
  have hkept : ∀ h k : HalfPlane 𝕜, 1 ≤ |det h k| → q = meet h k → candidate b [h, k] = some q := by
    intro h k hlarge heq
    have hnot : ¬ |det h k| < 1 / 10 ^ 12 := by
      have hsmall : (1 : 𝕜) / 10 ^ 12 ≤ 1 := div_le_one_of_le₀ (one_le_pow₀ (by norm_num)) (by positivity)
      exact not_lt.mpr (hsmall.trans hlarge)
    have hall : ((cons b).all fun c =>
        decide (along c (meet h k) ≤ c.c + 1 / 10 ^ 9 * scaleOf ((cons b).map HalfPlane.c))) = true := by
      rw [List.all_eq_true]
      intro c hc
      have hin : along c q ≤ c.c := hq c hc
      have hscale := one_le_scaleOf ((cons b).map HalfPlane.c)
      rw [decide_eq_true_eq, ← heq]
      linarith
    rw [candidate, if_neg hnot, if_pos hall, heq]
  have hlarge := one_le_abs_det (integral_of_mem_lines h hh) (integral_of_mem_lines k hk) hdet
  have hne : h ≠ k := by
    rintro rfl
    exact hdet (by rw [det, mul_comm, sub_self])
  rw [pairPolygon, mem_eraseDups, mem_filterMap]
  obtain hmem | hmem := pair_mem_combinations hh hk hne
  · exact ⟨[h, k], hmem, hkept h k hlarge (eq_meet_of_tight hdet hht hkt)⟩
  · have hdet' : det k h ≠ 0 := by rwa [det_swap, neg_ne_zero]
    refine ⟨[k, h], hmem, hkept k h ?_ (eq_meet_of_tight hdet' hkt hht)⟩
    rwa [det_swap, abs_neg]

omit [LinearOrder 𝕜] [IsStrictOrderedRing 𝕜] in
theorem tight_flip : Tight (flip h) q ↔ Tight h q := by
  have halong : along (flip h) q = -along h q := by
    simp only [along, flip]
    ring
  rw [Tight, Tight, halong, flip, neg_inj]

omit [LinearOrder 𝕜] [IsStrictOrderedRing 𝕜] in
theorem line_of_mem_cell {pos1 pos2 : Bool} (hh : h ∈ cell b pos1 pos2) :
    ∃ l ∈ lines b, (∀ q, Tight h q → Tight l q) ∧ ∀ k : HalfPlane 𝕜, (det h k ≠ 0 → det l k ≠ 0) := by
  have hflip : ∀ l ∈ lines b, h = flip l →
      ∃ l ∈ lines b, (∀ q, Tight h q → Tight l q) ∧ ∀ k : HalfPlane 𝕜, (det h k ≠ 0 → det l k ≠ 0) := by
    rintro l hl rfl
    refine ⟨l, hl, fun q => tight_flip.mp, fun k hk hzero => hk ?_⟩
    have hneg : det (flip l) k = -det l k := by
      simp only [det, flip]
      ring
    rw [hneg, hzero, neg_zero]
  have hself : h ∈ lines b → ∃ l ∈ lines b, (∀ q, Tight h q → Tight l q) ∧ ∀ k : HalfPlane 𝕜, (det h k ≠ 0 → det l k ≠ 0) :=
    fun hl => ⟨h, hl, fun _ => id, fun _ => id⟩
  have haxis1 : ⟨1, 0, 0⟩ ∈ lines b := by simp [lines]
  have haxis2 : ⟨0, 1, 0⟩ ∈ lines b := by simp [lines]
  obtain hcons | haxis := mem_append.mp hh
  · exact hself (mem_append_left _ hcons)
  · simp only [mem_cons, not_mem_nil, or_false] at haxis
    obtain rfl | rfl := haxis
    · cases pos1 with
      | true => exact hflip _ haxis1 rfl
      | false => exact hself haxis1
    · cases pos2 with
      | true => exact hflip _ haxis2 rfl
      | false => exact hself haxis2

theorem bounded_cell (b : PairBounds 𝕜) (pos1 pos2 : Bool) : Bounded (cell b pos1 pos2) := by
  intro v hv
  have hmem : ∀ h ∈ cons b, 0 < along h v → ∃ h ∈ cell b pos1 pos2, 0 < along h v :=
    fun h hh hpos => ⟨h, mem_append_left _ hh, hpos⟩
  by_cases hfst : v.1 = 0
  · have hsnd : v.2 ≠ 0 := fun hzero => hv (Prod.ext hfst hzero)
    obtain hneg | hpos := lt_or_gt_of_ne hsnd
    · exact hmem ⟨0, -1, -b.l2⟩ (by simp [cons]) (by simpa [along] using hneg)
    · exact hmem ⟨0, 1, b.u2⟩ (by simp [cons]) (by simpa [along] using hpos)
  · obtain hneg | hpos := lt_or_gt_of_ne hfst
    · exact hmem ⟨-1, 0, -b.l1⟩ (by simp [cons]) (by simpa [along] using hneg)
    · exact hmem ⟨1, 0, b.u1⟩ (by simp [cons]) (by simpa [along] using hpos)

theorem corners_subset (b : PairBounds 𝕜) (pos1 pos2 : Bool) :
    corners (cell b pos1 pos2) ⊆ {q | q ∈ pairPolygon b ∧ Within (cell b pos1 pos2) q} := by
  rintro q ⟨hq, h, hh, k, hk, hdet, hht, hkt⟩
  obtain ⟨l, hl, hlt, hldet⟩ := line_of_mem_cell hh
  obtain ⟨m, hm, hmt, hmdet⟩ := line_of_mem_cell hk
  have hcross : det l m ≠ 0 := by
    have hswap : det k l ≠ 0 := by
      rw [det_swap, neg_ne_zero]
      exact hldet k hdet
    rw [det_swap, neg_ne_zero]
    exact hmdet l hswap
  have hcons : Within (cons b) q := fun h hh => hq h (mem_append_left _ hh)
  exact ⟨mem_pairPolygon hcons hl hm hcross (hlt q hht) (hmt q hkt), hq⟩

example : pairPolygon (⟨-1, 1, -1, 1, -1, 1, -1, 1⟩ : PairBounds ℚ) = [(-1, 0), (1, 0), (0, -1), (0, 1), (0, 0)] := by
  decide +kernel

def liftOn (pos1 pos2 : Bool) : 𝕜 × 𝕜 →ₗ[𝕜] Vec4 𝕜 where
  toFun z := ![z.1, z.2, if pos1 then z.1 else 0, if pos2 then z.2 else 0]
  map_add' z w := by cases pos1 <;> cases pos2 <;> simp
  map_smul' c z := by cases pos1 <;> cases pos2 <;> simp

theorem liftOn_eq_lift {pos1 pos2 : Bool} (hz : Within (cell b pos1 pos2) z) : liftOn pos1 pos2 z = lift z := by
  have h1 := hz (if pos1 then flip ⟨1, 0, 0⟩ else ⟨1, 0, 0⟩) (by simp [cell])
  have h2 := hz (if pos2 then flip ⟨0, 1, 0⟩ else ⟨0, 1, 0⟩) (by simp [cell])
  have hfst : (if pos1 then z.1 else 0) = max z.1 0 := by
    cases pos1 with
    | true => exact (max_eq_left (by simpa [Inside, along, flip] using h1)).symm
    | false => exact (max_eq_right (by simpa [Inside, along] using h1)).symm
  have hsnd : (if pos2 then z.2 else 0) = max z.2 0 := by
    cases pos2 with
    | true => exact (max_eq_left (by simpa [Inside, along, flip] using h2)).symm
    | false => exact (max_eq_right (by simpa [Inside, along] using h2)).symm
  show ![z.1, z.2, if pos1 then z.1 else 0, if pos2 then z.2 else 0] = ![z.1, z.2, max z.1 0, max z.2 0]
  rw [hfst, hsnd]

theorem exists_cell (hz : Feasible b z) : ∃ pos1 pos2, Within (cell b pos1 pos2) z := by
  refine ⟨decide (0 ≤ z.1), decide (0 ≤ z.2), ?_⟩
  intro h hh
  obtain hcons | haxis := mem_append.mp hh
  · exact within_of_feasible hz h hcons
  · simp only [mem_cons, not_mem_nil, or_false, decide_eq_true_eq] at haxis
    obtain rfl | rfl := haxis
    · by_cases hpos : 0 ≤ z.1
      · simp [hpos, Inside, along, flip]
      · simpa [hpos, Inside, along] using (not_le.mp hpos).le
    · by_cases hpos : 0 ≤ z.2
      · simp [hpos, Inside, along, flip]
      · simpa [hpos, Inside, along] using (not_le.mp hpos).le

theorem lift_mem_hull (hz : Feasible b z) : lift z ∈ convexHull 𝕜 (lift '' {q | q ∈ pairPolygon b}) := by
  obtain ⟨pos1, pos2, hcell⟩ := exists_cell hz
  have hcorners := mem_hull_of_within (bounded_cell b pos1 pos2) hcell
  have himage : liftOn pos1 pos2 z ∈ convexHull 𝕜 (liftOn pos1 pos2 '' corners (cell b pos1 pos2)) := by
    rw [← LinearMap.image_convexHull]
    exact Set.mem_image_of_mem _ hcorners
  rw [liftOn_eq_lift hcell] at himage
  apply convexHull_mono _ himage
  rintro p ⟨q, hq, rfl⟩
  obtain ⟨hmem, hin⟩ := corners_subset b pos1 pos2 hq
  exact ⟨q, hmem, (liftOn_eq_lift hin).symm⟩

end

variable {𝕜 : Type} [Field 𝕜] [LinearOrder 𝕜] {num : Numerics 𝕜} {b : PairBounds 𝕜} {p : Vec4 𝕜} {f : Cut 𝕜}
  {pts : List (Vec4 𝕜)}

omit [Field 𝕜] in
theorem le_max?_getD [Zero 𝕜] {xs : List 𝕜} {x : 𝕜} (hx : x ∈ xs) : x ≤ xs.max?.getD 0 := by
  cases hmax : xs.max? with
  | none =>
    rw [max?_eq_none_iff.mp hmax] at hx
    cases hx
  | some y => exact (max?_eq_some_iff.mp hmax).2 x hx

theorem le_support (n : Vec4 𝕜) (hp : p ∈ pts) : n ⬝ᵥ p ≤ support n pts := le_max?_getD (List.mem_map_of_mem hp)

theorem facetOf_holds {scale : 𝕜} {idx : List (Vec4 𝕜)} (h : facetOf num pts scale idx = some f) (hp : p ∈ pts) : f.Holds p := by
  obtain ⟨n, -, hn⟩ := Option.bind_eq_some_iff.mp h
  dsimp only at hn
  split_ifs at hn
  obtain rfl := Option.some.inj hn
  exact le_support _ hp

variable [IsStrictOrderedRing 𝕜]

theorem collect_holds {scale : 𝕜} (hscale : 0 ≤ scale) {seen : List (List 𝕜)} {idxs : List (List (Vec4 𝕜))}
    (hf : f ∈ collect num pts scale seen idxs) (hp : p ∈ pts) : f.Holds p := by
  induction idxs generalizing seen with
  | nil => cases hf
  | cons idx rest ih =>
    rw [collect] at hf
    cases hfacet : facetOf num pts scale idx with
    | none =>
      rw [hfacet] at hf
      exact ih hf
    | some g =>
      rw [hfacet] at hf
      dsimp only at hf
      split_ifs at hf
      · exact ih hf
      · obtain rfl | hrest := mem_cons.mp hf
        · have hle : g.n ⬝ᵥ p ≤ g.d := facetOf_holds hfacet hp
          have hmargin : 0 ≤ 1 / 10 ^ 9 * scale := by positivity
          exact hle.trans (le_add_of_nonneg_right hmargin)
        · exact ih hrest

theorem holds_of_mem_hull {s : Set (Vec4 𝕜)} (hs : ∀ q ∈ s, f.Holds q) (hp : p ∈ convexHull 𝕜 s) : f.Holds p := by
  have hconvex : Convex 𝕜 {q | f.Holds q} := by
    intro x hx y hy a c ha hc hsum
    have hx' : f.n ⬝ᵥ x ≤ f.d := hx
    have hy' : f.n ⬝ᵥ y ≤ f.d := hy
    show f.n ⬝ᵥ (a • x + c • y) ≤ f.d
    rw [dotProduct_add, dotProduct_smul, dotProduct_smul, smul_eq_mul, smul_eq_mul]
    calc a * (f.n ⬝ᵥ x) + c * (f.n ⬝ᵥ y) ≤ a * f.d + c * f.d :=
          add_le_add (mul_le_mul_of_nonneg_left hx' ha) (mul_le_mul_of_nonneg_left hy' hc)
      _ = f.d := by rw [← add_mul, hsum, one_mul]
  exact convexHull_min hs hconvex hp

theorem facets_hold {z : 𝕜 × 𝕜} (hz : Feasible b z) (hf : f ∈ facets num b) : f.Holds (lift z) := by
  simp only [facets] at hf
  split_ifs at hf
  · cases hf
  · apply holds_of_mem_hull _ (lift_mem_hull hz)
    rintro q ⟨v, hv, rfl⟩
    exact collect_holds (zero_le_one.trans (one_le_scaleOf _)) hf (List.mem_map_of_mem hv)

variable {F : SinglePrecision 𝕜}

omit [Field 𝕜] [IsStrictOrderedRing 𝕜] in
theorem le_up32 (x : 𝕜) : x ≤ up32 F x := by
  rw [up32]
  split_ifs with hlt
  · exact F.le_next x hlt
  · exact not_lt.mp hlt

theorem facetF32_holds {mags : Vec4 𝕜} (hmags : ∀ j, |p j| ≤ mags j) (hf : f.Holds p) : (facetF32 F mags f).Holds p := by
  set n32 : Vec4 𝕜 := fun j => F.cast (f.n j) with hn32
  set shift : 𝕜 := ∑ j, |f.n j - n32 j| * mags j with hshift
  have hmoved : n32 ⬝ᵥ p ≤ f.n ⬝ᵥ p + shift := by
    rw [dotProduct, dotProduct, hshift, ← Finset.sum_add_distrib]
    apply Finset.sum_le_sum
    intro j _
    have hterm : -((f.n j - n32 j) * p j) ≤ |f.n j - n32 j| * mags j := by
      calc -((f.n j - n32 j) * p j) ≤ |(f.n j - n32 j) * p j| := neg_le_abs _
        _ = |f.n j - n32 j| * |p j| := abs_mul _ _
        _ ≤ |f.n j - n32 j| * mags j := mul_le_mul_of_nonneg_left (hmags j) (abs_nonneg _)
    linarith
  have hnonneg : 0 ≤ shift := by
    apply Finset.sum_nonneg
    intro j _
    exact mul_nonneg (abs_nonneg _) ((abs_nonneg _).trans (hmags j))
  have hmargin : 0 ≤ 4 * (1 / (2 : ℕ) ^ 52) * (|f.d| + shift) := by positivity
  have hd : f.n ⬝ᵥ p ≤ f.d := hf
  have hup := le_up32 (F := F) (f.d + shift + 4 * (1 / (2 : ℕ) ^ 52) * (|f.d| + shift))
  show n32 ⬝ᵥ p ≤ up32 F (f.d + shift + 4 * (1 / (2 : ℕ) ^ 52) * (|f.d| + shift))
  linarith

variable {c : Call 𝕜} {cache : FacetCache 𝕜}

def Sound (num : Numerics 𝕜) (cache : FacetCache 𝕜) : Prop := ∀ b out, cache.lookup b = some out → out = facets num b

theorem pairFacets_of_sound (hcache : Sound num cache) (hb : c.bounds = some b) :
    ∃ cache', pairFacets num cache c = some (facets num b, cache') ∧ Sound num cache' := by
  rw [pairFacets, hb, Option.map_some]
  cases hlookup : cache.lookup b with
  | some out =>
    rw [hcache b out hlookup]
    exact ⟨cache, rfl, hcache⟩
  | none =>
    refine ⟨_, rfl, ?_⟩
    intro b' out hout
    rw [lookup_cons] at hout
    split at hout
    · next heq =>
      rw [beq_iff_eq.mp heq]
      exact (Option.some.inj hout).symm
    · exact hcache b' out hout

theorem sound_cacheAfter (hcache : Sound num cache) (c : Call 𝕜) : Sound num (cacheAfter num cache c) := by
  rw [cacheAfter]
  cases hb : c.bounds with
  | none =>
    rw [pairFacets, hb]
    exact hcache
  | some b =>
    obtain ⟨cache', hcall, hsound⟩ := pairFacets_of_sound hcache hb
    rw [hcall]
    exact hsound

theorem sound_after (calls : List (Call 𝕜)) (hcache : Sound num cache) : Sound num (calls.foldl (cacheAfter num) cache) := by
  induction calls generalizing cache with
  | nil => exact hcache
  | cons c calls ih => exact ih (sound_cacheAfter hcache c)

theorem sound_nil : Sound num [] := fun _ _ h => by cases h

end Onnxsim.Crown.PairCuts
