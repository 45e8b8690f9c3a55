import Onnxsim.Certify.Completeness

namespace Onnxsim.Certify.Transfer

open Lib.Expressions Overflow.Arrays Windows Shrinking
  Patches TwinGrids Plans Completeness

section

variable {e : Leafs} {ls : List Nat} {g : Axis × Axis} {y y' x x' dy dx : Int} {n : Nat} {px qx : Pixel}

/-- A pixel of a leaf at the full extents. -/
structure FullPixel (e : Leafs) (px : Pixel) : Prop where
  batch : px.batch < e.batch px.leaf
  channel : px.channel < e.channels px.leaf
  row : px.row < e.full.1
  col : px.col < e.full.2

theorem moved_inside {g : Axis} {n n' q q' d r : Int} (ht : Twin g n n' q q' d) (_ : n' ≤ n) (hr : 0 ≤ r) (hr' : r < n')
    (hlow : q' * g.stride - g.lead ≤ r) (hhigh : r < q' * g.stride + g.tail) : 0 ≤ r + d ∧ r + d < n := by
  have hshift : d = q * g.stride - q' * g.stride := by rw [ht.shift, sub_mul]
  constructor
  · rcases ht.top with hd | ⟨hlead, _⟩
    · omega
    · omega
  · rcases ht.bottom with hd | ⟨htail, _⟩
    · omega
    · omega

theorem move_full (hp : InPatch e ls g y' x' px) (hrows : e.reduced.1 ≤ e.full.1) (hcols : e.reduced.2 ≤ e.full.2)
    (hty : Twin g.1 e.full.1 e.reduced.1 y y' dy) (htx : Twin g.2 e.full.2 e.reduced.2 x x' dx)
    (hbatch : pick (e.batch px.leaf) n < e.batch px.leaf) :
    0 ≤ (px.row : Int) + dy ∧ 0 ≤ (px.col : Int) + dx ∧ FullPixel e (move e n dy dx px) := by
  obtain ⟨hrow, hrow'⟩ := moved_inside hty (by omega) (Int.natCast_nonneg _) hp.row.1 hp.row.2.1 hp.row.2.2
  obtain ⟨hcol, hcol'⟩ := moved_inside htx (by omega) (Int.natCast_nonneg _) hp.col.1 hp.col.2.1 hp.col.2.2
  refine ⟨hrow, hcol, hbatch, hp.channel, ?_, ?_⟩
  · rw [move]
    dsimp only
    omega
  · rw [move]
    dsimp only
    omega

theorem move_injective (hp : InPatch e ls g y' x' px) (hq : InPatch e ls g y' x' qx)
    (hpos : 0 ≤ (px.row : Int) + dy ∧ 0 ≤ (px.col : Int) + dx) (hpos' : 0 ≤ (qx.row : Int) + dy ∧ 0 ≤ (qx.col : Int) + dx)
    (h : move e n dy dx px = move e n dy dx qx) : px = qx := by
  obtain ⟨leaf, batch, channel, row, col⟩ := px
  obtain ⟨leaf', batch', channel', row', col'⟩ := qx
  have hb := hp.batch
  have hb' := hq.batch
  simp only [move, Pixel.mk.injEq] at h
  dsimp only at hb hb' hpos hpos'
  obtain ⟨rfl, -, rfl, hrow, hcol⟩ := h
  subst hb hb'
  congr 1
  · omega
  · omega

variable {𝕜 : Type} {space : Space 𝕜} {red : Reduction} {A A' B B' G : Grid 𝕜}

/-- Every full-size position of both roots has a reduced one with the same expressions, up to a renaming of the pixels of
its patch within their leaves and channels. -/
def Complete (space : Space 𝕜) (red : Reduction) (A A' B B' : Grid 𝕜) : Prop :=
  ∀ n c y x, n < A.batch → n < B.batch → c < A.channels → c < B.channels → y < A.rows → x < A.cols →
    ∃ y' x', y' < A'.rows ∧ x' < A'.cols ∧ ∃ (r : Pixel → Pixel) (patch : Pixel → Prop),
      (∀ px, patch px → (r px).leaf = px.leaf ∧ (r px).channel = px.channel ∧ FullPixel (sizes space red) (r px)) ∧
      (∀ px qx, patch px → patch qx → r px = r qx → px = qx) ∧
      (A'.at_ 0 c y' x').All patch ∧ A.at_ n c y x = (A'.at_ 0 c y' x').rename r ∧
      (B'.at_ 0 c y' x').All patch ∧ B.at_ n c y x = (B'.at_ 0 c y' x').rename r

/-- Two roots at both extents. -/
structure Pair (space : Space 𝕜) (red : Reduction) (A A' B B' : Grid 𝕜) : Prop where
  left : Root space red A A'
  right : Root space red B B'
  rows : B.rows = A.rows
  cols : B.cols = A.cols
  rows' : B'.rows = A'.rows
  cols' : B'.cols = A'.cols
  batch : ∀ j ∈ red.leaves, (sizes space red).batch j = A.batch ∨ (sizes space red).batch j = B.batch ∨
    (sizes space red).batch j = 1

theorem at_of_lt (G : Grid 𝕜) {n : Nat} (hn : n < G.batch) (c y x : Nat) : G.at_ n c y x = G.at_ (pick G.batch n) c y x := by
  rw [pick_of_lt hn]

theorem Pair.pick_lt (h : Pair space red A A' B B') {n j : Nat} (hA : n < A.batch) (hB : n < B.batch) (hj : j ∈ red.leaves) :
    pick ((sizes space red).batch j) n < (sizes space red).batch j := by
  have hbatch := h.batch j hj
  rw [pick]
  split <;> omega

theorem complete_of_pair (h : Pair space red A A' B B') : Complete space red A A' B B' := by
  intro n c y x hnA hnB hcA hcB hy hx
  obtain ⟨y', hy', dy, hty⟩ := h.left.rows.exists_twin hy
  obtain ⟨x', hx', dx, htx⟩ := h.left.cols.exists_twin hx
  have hfull : ∀ px, InPatch (sizes space red) red.leaves red.axes y' x' px →
      0 ≤ (px.row : Int) + dy ∧ 0 ≤ (px.col : Int) + dx ∧ FullPixel (sizes space red) (move (sizes space red) n dy dx px) :=
    fun px hp => move_full hp h.left.rows.le.le h.left.cols.le.le hty htx (h.pick_lt hnA hnB hp.leaf)
  refine ⟨y', x', hy', hx', move (sizes space red) n dy dx, InPatch (sizes space red) red.leaves red.axes y' x',
    fun px hp => ⟨rfl, rfl, (hfull px hp).2.2⟩, fun px qx hp hq heq => ?_, ?_, ?_, ?_, ?_⟩
  · obtain ⟨hrow, hcol, -⟩ := hfull px hp
    obtain ⟨hrow', hcol', -⟩ := hfull qx hq
    exact move_injective hp hq ⟨hrow, hcol⟩ ⟨hrow', hcol'⟩ heq
  · exact h.left.patch c y' x' hcA hy' hx'
  · rw [at_of_lt A hnA]
    exact h.left.same n c y y' x x' dy dx hcA hy hy' hx hx' hty htx
  · exact h.right.patch c y' x' hcB (h.rows' ▸ hy') (h.cols' ▸ hx')
  · rw [at_of_lt B hnB]
    exact h.right.same n c y y' x x' dy dx hcB (h.rows ▸ hy) (h.rows' ▸ hy') (h.cols ▸ hx) (h.cols' ▸ hx') hty htx

def broadcastable (shape target : List Nat) : Bool :=
  shape.length ≤ target.length && (shape.reverse.zip target.reverse).all fun d => d.1 = 1 || d.1 = d.2

def boundAt (bound : NDArray 𝕜) (target idx : List Nat) : Option 𝕜 :=
  if broadcastable bound.shape target then bound.get? (alignIndex bound.shape idx) else none

def fullShape (space : Space 𝕜) (red : Reduction) (i : Nat) : List Nat :=
  [(sizes space red).batch i, (sizes space red).channels i, red.fullHw.1, red.fullHw.2]

def reducedShape (space : Space 𝕜) (red : Reduction) (i : Nat) : List Nat :=
  [1, (sizes space red).channels i, red.reducedHw.1, red.reducedHw.2]

theorem mem_indices_four {n m h w b c y x : Nat} :
    [b, c, y, x] ∈ indices [n, m, h, w] ↔ b < n ∧ c < m ∧ y < h ∧ x < w := by
  simp [indices]

theorem uniformConst_cases {shape : List Nat} (h : uniformConst shape = true) :
    shape = [] ∨ shape = [1] ∨ shape = [1, 1] ∨ (∃ m, shape = [m, 1, 1]) ∨ ∃ m, shape = [1, m, 1, 1] := by
  match shape with
  | [] => exact .inl rfl
  | [w] =>
    simp [uniformConst, padded] at h
    simp [h]
  | [h', w] =>
    simp [uniformConst, padded] at h
    simp [h]
  | [m, h', w] =>
    simp [uniformConst, padded] at h
    simp [h]
  | [n, m, h', w] =>
    simp [uniformConst, padded] at h
    simp [h]
  | _ :: _ :: _ :: _ :: _ :: _ => simp [uniformConst, padded] at h

theorem boundAt_uniform {bound : NDArray 𝕜} (hu : uniformConst bound.shape = true)
    (n m h w b c y x n' h' w' b' y' x' : Nat) :
    boundAt bound [n, m, h, w] [b, c, y, x] = boundAt bound [n', m, h', w'] [b', c, y', x'] := by
  rcases uniformConst_cases hu with hs | hs | hs | ⟨k, hs⟩ | ⟨k, hs⟩
  all_goals simp [boundAt, hs, broadcastable, alignIndex]

variable [LE 𝕜] {ranges : InputRanges 𝕜}

def InRange (r : NDArray 𝕜 × NDArray 𝕜) (target idx : List Nat) (v : 𝕜) : Prop :=
  ∃ lo ∈ boundAt r.1 target idx, ∃ hi ∈ boundAt r.2 target idx, lo ≤ v ∧ v ≤ hi

/-- An assignment of the pixels of the leaves that lies in the ranges of the inputs. -/
def InBox (space : Space 𝕜) (ranges : InputRanges 𝕜) (ls : List Nat) (shape : Nat → List Nat) (v : Pixel → 𝕜) : Prop :=
  ∀ i ∈ ls, ∀ r, leafRange space ranges i = some r → ∀ b c y x, [b, c, y, x] ∈ indices (shape i) →
    InRange r (shape i) [b, c, y, x] (v ⟨i, b, c, y, x⟩)

theorem inRange_uniform {r : NDArray 𝕜 × NDArray 𝕜} (hu : uniformRange r = true)
    {n m h w b c y x n' h' w' b' y' x' : Nat} {v : 𝕜} (hv : InRange r [n, m, h, w] [b, c, y, x] v) :
    InRange r [n', m, h', w'] [b', c, y', x'] v := by
  rw [uniformRange, Bool.and_eq_true] at hu
  rw [InRange, boundAt_uniform hu.1 n m h w b c y x n' h' w' b' y' x',
    boundAt_uniform hu.2 n m h w b c y x n' h' w' b' y' x'] at hv
  exact hv

/-- The full-size pixels seen from one position: the patch is moved, the rest stays. -/
def pulled (e : Leafs) (n : Nat) (dy dx : Int) (v : Pixel → 𝕜) (px : Pixel) : 𝕜 :=
  if (px.row + dy).toNat < e.full.1 ∧ (px.col + dx).toNat < e.full.2 then v (move e n dy dx px) else v (move e n 0 0 px)

theorem pulled_inBox (hu : ∀ j ∈ red.leaves, (leafRange space ranges j).all uniformRange = true) {n : Nat} {dy dx : Int}
    (hrows : red.reducedHw.1 ≤ red.fullHw.1) (hcols : red.reducedHw.2 ≤ red.fullHw.2)
    (hn : ∀ j ∈ red.leaves, pick ((sizes space red).batch j) n < (sizes space red).batch j) {v : Pixel → 𝕜}
    (hv : InBox space ranges red.leaves (fullShape space red) v) :
    InBox space ranges red.leaves (reducedShape space red) (pulled (sizes space red) n dy dx v) := by
  intro i hi r hr b c y x hidx
  obtain ⟨-, hc, hy, hx⟩ := mem_indices_four.mp hidx
  have huniform : uniformRange r = true := by
    have hall := hu i hi
    rw [hr] at hall
    exact hall
  rw [pulled]
  split
  · next hin => exact inRange_uniform huniform (hv i hi r hr _ c _ _ (mem_indices_four.mpr ⟨hn i hi, hc, hin⟩))
  · have hrow : ((y : Int) + 0).toNat < red.fullHw.1 := by omega
    have hcol : ((x : Int) + 0).toNat < red.fullHw.2 := by omega
    exact inRange_uniform huniform (hv i hi r hr _ c _ _ (mem_indices_four.mpr ⟨hn i hi, hc, hrow, hcol⟩))

end

variable {𝕜 : Type} [Field 𝕜] [LinearOrder 𝕜] {space : Space 𝕜} {red : Reduction} {ranges : InputRanges 𝕜}
  {A A' B B' : Grid 𝕜} {atol rtol : 𝕜}

def Close (atol rtol x y : 𝕜) : Prop := |x - y| ≤ atol + rtol * |y|

/-- A tolerance that holds at every reduced position holds at every full-size one. -/
def Transfers (space : Space 𝕜) (red : Reduction) (ranges : InputRanges 𝕜) (A A' B B' : Grid 𝕜) (atol rtol : 𝕜) : Prop :=
  (∀ v, InBox space ranges red.leaves (reducedShape space red) v →
      ∀ c y x, c < A'.channels → c < B'.channels → y < A'.rows → x < A'.cols →
        Close atol rtol ((A'.at_ 0 c y x).eval v) ((B'.at_ 0 c y x).eval v)) →
    ∀ v, InBox space ranges red.leaves (fullShape space red) v →
      ∀ n c y x, n < A.batch → n < B.batch → c < A.channels → c < B.channels → y < A.rows → x < A.cols →
        Close atol rtol ((A.at_ n c y x).eval v) ((B.at_ n c y x).eval v)

theorem transfers_of_pair (h : Pair space red A A' B B')
    (hu : ∀ j ∈ red.leaves, (leafRange space ranges j).all uniformRange = true) :
    Transfers space red ranges A A' B B' atol rtol := by
  intro hreduced v hv n c y x hnA hnB hcA hcB hy hx
  obtain ⟨y', hy', dy, hty⟩ := h.left.rows.exists_twin hy
  obtain ⟨x', hx', dx, htx⟩ := h.left.cols.exists_twin hx
  have hrows := h.left.rows.le.le
  have hcols := h.left.cols.le.le
  have hpulled : ∀ px, InPatch (sizes space red) red.leaves red.axes y' x' px →
      v (move (sizes space red) n dy dx px) = pulled (sizes space red) n dy dx v px := by
    intro px hp
    obtain ⟨-, -, hfull⟩ := move_full hp hrows hcols hty htx (h.pick_lt hnA hnB hp.leaf)
    rw [pulled, if_pos ⟨hfull.row, hfull.col⟩]
  have hA : (A.at_ n c y x).eval v = (A'.at_ 0 c y' x').eval (pulled (sizes space red) n dy dx v) := by
    rw [at_of_lt A hnA, h.left.same n c y y' x x' dy dx hcA hy hy' hx hx' hty htx]
    exact Expr.eval_rename ((h.left.patch c y' x' hcA hy' hx').mono hpulled)
  have hB : (B.at_ n c y x).eval v = (B'.at_ 0 c y' x').eval (pulled (sizes space red) n dy dx v) := by
    rw [at_of_lt B hnB, h.right.same n c y y' x x' dy dx hcB (h.rows ▸ hy) (h.rows' ▸ hy') (h.cols ▸ hx) (h.cols' ▸ hx') hty htx]
    exact Expr.eval_rename ((h.right.patch c y' x' hcB (h.rows' ▸ hy') (h.cols' ▸ hx')).mono hpulled)
  rw [hA, hB]
  apply hreduced _ (pulled_inBox hu hrows hcols (fun j hj => h.pick_lt hnA hnB hj) hv)
  · rw [h.left.channels]
    exact hcA
  · rw [h.right.channels]
    exact hcB
  · exact hy'
  · exact hx'

end Onnxsim.Certify.Transfer

namespace Onnxsim.Certify.Lifting

open List Lib.Expressions Lib.Results Overflow.Arrays Windows
  Shrinking Patches TwinGrids Plans
  Completeness Transfer

section

/-- A Python slice with step one: a negative index counts from the end. -/
structure Slice where
  start : Nat
  len : Nat

def clampIndex (i : Int) (n : Nat) : Nat := if i < 0 then (i + n).toNat else min i.toNat n

def slice (lo hi : Int) (n : Nat) : Slice := ⟨clampIndex lo n, clampIndex hi n - clampIndex lo n⟩

/-- Whether numpy assigns a slice of one length to one of another. -/
def fits (source target : Nat) : Bool := source = target || source = 1

/-- The pixels of a patch, and how far they are moved. -/
structure Span where
  lo : Int
  hi : Int
  shift : Int

def span (g : Axis) (n n' p : Nat) : Span :=
  ⟨max 0 (p * g.stride - g.lead), min n' (p * g.stride + g.tail), fullShift g n n' p⟩

def Span.source (s : Span) (n' : Nat) : Slice := slice s.lo s.hi n'

def Span.target (s : Span) (n : Nat) : Slice := slice (s.lo + s.shift) (s.hi + s.shift) n

/-- The patch does not end above the image, or both slices that wrap around come to the same. -/
def SliceSafe (g : Axis) (n n' p : Nat) : Prop :=
  0 ≤ p * g.stride + g.tail ∨ n + (p * g.stride + g.tail) ≤ 0 ∨ n' + (p * g.stride + g.tail) = 1

def Slice.Has (s : Slice) (i : Nat) : Prop := s.start ≤ i ∧ i < s.start + s.len

instance (s : Slice) (i : Nat) : Decidable (s.Has i) := inferInstanceAs (Decidable (_ ∧ _))

/-- The index of the source that is assigned to index `i` of the target. -/
def Slice.from (s t : Slice) (i : Nat) : Nat := s.start + pick s.len (i - t.start)

variable {g : Axis} {n n' l l' p : Nat}

theorem clampIndex_of_nonneg {i : Int} (h : 0 ≤ i) (n : Nat) : clampIndex i n = min i.toNat n := if_neg (by omega)

theorem clampIndex_of_neg {i : Int} (h : i < 0) (n : Nat) : clampIndex i n = (i + n).toNat := if_pos h

/-- A patch that does not end above the image is moved as it is. -/
structure Moved (g : Axis) (n n' p : Nat) (s len d : Nat) : Prop where
  source : (span g n n' p).source n' = ⟨s, len⟩
  target : (span g n n' p).target n = ⟨s + d, len⟩
  shift : fullShift g n n' p = d
  inside : s + len ≤ n'
  apart : d = 0 ∨ 0 < s + d
  covers : ∀ r : Nat, r < n' → (p : Int) * g.stride - g.lead ≤ r → (r : Int) < p * g.stride + g.tail → s ≤ r ∧ r < s + len

theorem fullShift_eq (g : Axis) (n n' p : Nat) :
    fullShift g n n' p = if (n' : Int) < p * g.stride + g.tail then (n : Int) - n' else 0 := by
  rw [fullShift, bottomAffected]
  simp only [decide_eq_true_eq]

variable (h : AxisPair g n n' l l')

include h

theorem moved_of_nonneg (hend : 0 ≤ (p : Int) * g.stride + g.tail) : ∃ s len d, Moved g n n' p s len d := by
  have hlt := h.le
  have hwide := h.aligned.wide
  by_cases hbottom : (n' : Int) < p * g.stride + g.tail
  · have hshift : fullShift g n n' p = (n : Int) - n' := by rw [fullShift_eq, if_pos hbottom]
    have hspan : span g n n' p = ⟨max 0 (p * g.stride - g.lead), n', (n : Int) - n'⟩ := by
      rw [span, hshift, min_eq_left hbottom.le]
    refine ⟨min (max 0 ((p : Int) * g.stride - g.lead)).toNat n', n' - min (max 0 ((p : Int) * g.stride - g.lead)).toNat n',
      n - n', ?_, ?_, ?_, ?_, ?_, ?_⟩
    · rw [hspan, Span.source, slice, clampIndex_of_nonneg (le_max_left _ _), clampIndex_of_nonneg (Int.natCast_nonneg _),
        Int.toNat_natCast, min_self]
    · have hlo : 0 ≤ max 0 ((p : Int) * g.stride - g.lead) := le_max_left _ _
      rw [hspan, Span.target, slice, clampIndex_of_nonneg (by dsimp only; omega), clampIndex_of_nonneg (by dsimp only; omega)]
      dsimp only
      congr 1
      · omega
      · omega
    · omega
    · omega
    · omega
    · intro r hr hlow hhigh
      omega
  · have hshift : fullShift g n n' p = 0 := by rw [fullShift_eq, if_neg hbottom]
    have hspan : span g n n' p = ⟨max 0 (p * g.stride - g.lead), p * g.stride + g.tail, 0⟩ := by
      rw [span, hshift, min_eq_right (not_lt.mp hbottom)]
    refine ⟨(max 0 ((p : Int) * g.stride - g.lead)).toNat, (p * g.stride + g.tail).toNat -
      (max 0 ((p : Int) * g.stride - g.lead)).toNat, 0, ?_, ?_, hshift, ?_, .inl rfl, ?_⟩
    · rw [hspan, Span.source, slice, clampIndex_of_nonneg (le_max_left _ _), clampIndex_of_nonneg hend]
      congr 1
      · omega
      · omega
    · rw [hspan, Span.target, slice, add_zero, add_zero, clampIndex_of_nonneg (le_max_left _ _), clampIndex_of_nonneg hend]
      congr 1
      · omega
      · omega
    · omega
    · intro r hr hlow hhigh
      omega

theorem slices_of_neg (hend : (p : Int) * g.stride + g.tail < 0) :
    (span g n n' p).source n' = ⟨0, (p * g.stride + g.tail + n').toNat⟩ ∧
      (span g n n' p).target n = ⟨0, (p * g.stride + g.tail + n).toNat⟩ := by
  have hwide := h.aligned.wide
  have hshift : fullShift g n n' p = 0 := by rw [fullShift_eq, if_neg (by omega)]
  have hspan : span g n n' p = ⟨0, p * g.stride + g.tail, 0⟩ := by
    rw [span, hshift, min_eq_right (by omega), max_eq_left (by omega)]
  constructor
  · rw [hspan, Span.source, slice, clampIndex_of_nonneg le_rfl, clampIndex_of_neg hend]
    rfl
  · rw [hspan, Span.target, slice, add_zero, add_zero, clampIndex_of_nonneg le_rfl, clampIndex_of_neg hend]
    rfl

theorem fits_slices :
    fits ((span g n n' p).source n').len ((span g n n' p).target n).len = true ↔ SliceSafe g n n' p := by
  have hlt := h.le
  rw [fits, Bool.or_eq_true, decide_eq_true_iff, decide_eq_true_iff, SliceSafe]
  by_cases hend : 0 ≤ (p : Int) * g.stride + g.tail
  · obtain ⟨s, len, d, hmoved⟩ := moved_of_nonneg h hend
    rw [hmoved.source, hmoved.target]
    exact iff_of_true (.inl rfl) (.inl hend)
  · obtain ⟨hsource, htarget⟩ := slices_of_neg h (not_le.mp hend)
    rw [hsource, htarget]
    dsimp only
    omega

theorem from_slices {r : Nat} (hr : r < n') (hlow : (p : Int) * g.stride - g.lead ≤ r)
    (hhigh : (r : Int) < p * g.stride + g.tail) :
    ((span g n n' p).target n).Has (r + fullShift g n n' p).toNat ∧
      ((span g n n' p).source n').from ((span g n n' p).target n) (r + fullShift g n n' p).toNat = r := by
  have hend : 0 ≤ (p : Int) * g.stride + g.tail := by omega
  obtain ⟨s, len, d, hmoved⟩ := moved_of_nonneg h hend
  obtain ⟨hs, hlen⟩ := hmoved.covers r hr hlow hhigh
  have hplace : ((r : Int) + d).toNat = r + d := by omega
  rw [hmoved.shift, hplace, hmoved.source, hmoved.target, Slice.from]
  rw [pick_of_lt (by dsimp only; omega)]
  refine ⟨⟨?_, ?_⟩, ?_⟩
  · dsimp only
    omega
  · dsimp only
    omega
  · dsimp only
    omega

theorem from_lt (hsafe : SliceSafe g n n' p) {i : Nat} (hi : ((span g n n' p).target n).Has i) :
    ((span g n n' p).source n').from ((span g n n' p).target n) i < n' := by
  have hpos := h.positive
  by_cases hend : 0 ≤ (p : Int) * g.stride + g.tail
  · obtain ⟨s, len, d, hmoved⟩ := moved_of_nonneg h hend
    have hinside := hmoved.inside
    rw [hmoved.target, Slice.Has] at hi
    dsimp only at hi
    rw [hmoved.source, hmoved.target, Slice.from, pick_of_lt (by dsimp only; omega)]
    dsimp only
    omega
  · obtain ⟨hsource, htarget⟩ := slices_of_neg h (not_le.mp hend)
    rw [htarget, Slice.Has] at hi
    dsimp only at hi
    have hone : (p * g.stride + g.tail + n').toNat = 1 := by
      rcases hsafe with hsafe | hsafe | hsafe <;> omega
    rw [hsource, htarget, Slice.from, hone, pick_one]
    exact hpos

theorem exists_uncovered (p : Nat) : ∃ i < n, ¬ ((span g n n' p).target n).Has i := by
  have hlt := h.le
  by_cases hend : 0 ≤ (p : Int) * g.stride + g.tail
  · obtain ⟨s, len, d, hmoved⟩ := moved_of_nonneg h hend
    have hinside := hmoved.inside
    rw [hmoved.target]
    rcases hmoved.apart with rfl | hd
    · refine ⟨n - 1, by omega, fun hhas => ?_⟩
      have hhigh := hhas.2
      dsimp only at hhigh
      omega
    · refine ⟨0, by omega, fun hhas => ?_⟩
      have hlow := hhas.1
      dsimp only at hlow
      omega
  · obtain ⟨-, htarget⟩ := slices_of_neg h (not_le.mp hend)
    rw [htarget]
    refine ⟨n - 1, by omega, fun hhas => ?_⟩
    have hhigh := hhas.2
    dsimp only at hhigh
    omega

end

section

variable {𝕜 : Type}

/-- An array of rank four. -/
structure Image (𝕜 : Type) where
  batch : Nat
  channels : Nat
  rows : Nat
  cols : Nat
  at_ : Nat → Nat → Nat → Nat → 𝕜

/-- The patch of `small`, copied into an array of the given shape that holds `fill` elsewhere. -/
def embed (fill : 𝕜) (rows cols : Span) (small : Image 𝕜) (n c h w : Nat) : Except String (Image 𝕜) :=
  if n = 0 ∨ small.batch = 0 then .error "IndexError"
  else if !(fits small.channels c && fits (rows.source small.rows).len (rows.target h).len &&
      fits (cols.source small.cols).len (cols.target w).len) then
    .error "could not broadcast input array"
  else .ok ⟨n, c, h, w, fun b k y x =>
    if b = 0 ∧ (rows.target h).Has y ∧ (cols.target w).Has x then
      small.at_ 0 (pick small.channels k) ((rows.source small.rows).from (rows.target h) y)
        ((cols.source small.cols).from (cols.target w) x)
    else fill⟩

variable [Zero 𝕜] [LinearOrder 𝕜] (space : Space 𝕜) (ranges : InputRanges 𝕜) (red : Reduction)

/-- The value outside the patch: zero, or what is next to it between the least and the greatest bound. -/
def fillOf : Option (NDArray 𝕜 × NDArray 𝕜) → Except String 𝕜
  | none => .ok 0
  | some r =>
    match r.1.data.min?, r.2.data.max? with
    | some lo, some hi => .ok (min (max 0 lo) hi)
    | _, _ => .error "zero-size array to reduction operation"

/-- One leaf of a counterexample at position `(p, q)`, at the full extents. -/
def liftLeaf (cexById : Nat → Option (Image 𝕜)) (p q i : Nat) : Except String (Option (Image 𝕜)) :=
  match cexById i, space.shape i with
  | some small, some [n, c, h, w] => do
    let fill ← fillOf (leafRange space ranges i)
    let big ← embed fill (span red.axes.1 red.fullHw.1 red.reducedHw.1 p) (span red.axes.2 red.fullHw.2 red.reducedHw.2 q)
      small n c h w
    .ok (some big)
  | some _, some _ => .error "too many indices for array"
  | _, _ => .ok none

def liftLeaves (cexById : Nat → Option (Image 𝕜)) (p q : Nat) : List Nat → Except String (Option (List (Nat × Image 𝕜)))
  | [] => .ok (some [])
  | i :: rest => do
    match ← liftLeaf space ranges red cexById p q i with
    | none => .ok none
    | some big => do
      let others ← liftLeaves cexById p q rest
      .ok (others.map ((i, big) :: ·))

/-- `_Prover._lift`. -/
def lift (cexById : Nat → Option (Image 𝕜)) : Option (List Nat) → Except String (Option (List (Nat × Image 𝕜)))
  | some [_, _, p, q] => liftLeaves space ranges red cexById p q red.leaves
  | _ => .ok none

end

variable {𝕜 : Type} [Zero 𝕜] [LinearOrder 𝕜] {space : Space 𝕜} {ranges : InputRanges 𝕜} {red : Reduction}
  {cexById : Nat → Option (Image 𝕜)} {p q : Nat} {ls : List Nat}

theorem liftLeaves_eq_ok {out : List (Nat × Image 𝕜)} (h : liftLeaves space ranges red cexById p q ls = .ok (some out))
    {i : Nat} (hi : i ∈ ls) :
    ∃ big, liftLeaf space ranges red cexById p q i = .ok (some big) ∧ out.lookup i = some big := by
  induction ls generalizing out with
  | nil => cases hi
  | cons j rest ih =>
    obtain ⟨big?, hbig, h₁⟩ := bind_eq_ok h
    cases big? with
    | none => cases h₁
    | some big =>
      obtain ⟨others, hothers, h₂⟩ := bind_eq_ok h₁
      cases others with
      | none => cases h₂
      | some others =>
        cases h₂
        by_cases hij : i = j
        · subst hij
          exact ⟨big, hbig, lookup_cons_self⟩
        · obtain ⟨big', hbig', hlookup⟩ := ih hothers ((mem_cons.mp hi).resolve_left hij)
          refine ⟨big', hbig', ?_⟩
          rw [lookup_cons, beq_false_of_ne hij]
          exact hlookup

theorem liftLeaves_ok (h : ∀ i ∈ ls, ∃ big, liftLeaf space ranges red cexById p q i = .ok (some big)) :
    ∃ out, liftLeaves space ranges red cexById p q ls = .ok (some out) := by
  induction ls with
  | nil => exact ⟨[], rfl⟩
  | cons j rest ih =>
    obtain ⟨big, hbig⟩ := h j mem_cons_self
    obtain ⟨out, hout⟩ := ih fun i hi => h i (mem_cons_of_mem _ hi)
    refine ⟨(j, big) :: out, ?_⟩
    rw [liftLeaves, ok_bind hbig]
    dsimp only
    rw [ok_bind hout]
    rfl

end Onnxsim.Certify.Lifting
