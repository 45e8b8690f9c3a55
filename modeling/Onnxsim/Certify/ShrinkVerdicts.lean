import Onnxsim.Certify.Lifting

namespace Onnxsim.Certify.Reproduction

open Lib.Expressions Lib.Results Overflow.Arrays Windows
  Shrinking Patches TwinGrids Plans
  Completeness Transfer Lifting

section

variable {𝕜 : Type} (space : Space 𝕜) (red : Reduction)

def cexOf (w : Pixel → 𝕜) (i : Nat) : Option (Image 𝕜) :=
  if i ∈ red.leaves then
    some ⟨1, (sizes space red).channels i, red.reducedHw.1, red.reducedHw.2, fun b k y x => w ⟨i, b, k, y, x⟩⟩
  else none

def rowSpan (p : Nat) : Span := span red.axes.1 red.fullHw.1 red.reducedHw.1 p

def colSpan (q : Nat) : Span := span red.axes.2 red.fullHw.2 red.reducedHw.2 q

def liftedImage (w : Pixel → 𝕜) (p q : Nat) (fill : 𝕜) (i : Nat) : Image 𝕜 :=
  ⟨(sizes space red).batch i, (sizes space red).channels i, red.fullHw.1, red.fullHw.2, fun b k y x =>
    if b = 0 ∧ ((rowSpan red p).target red.fullHw.1).Has y ∧ ((colSpan red q).target red.fullHw.2).Has x then
      w ⟨i, 0, pick ((sizes space red).channels i) k,
        ((rowSpan red p).source red.reducedHw.1).from ((rowSpan red p).target red.fullHw.1) y,
        ((colSpan red q).source red.reducedHw.2).from ((colSpan red q).target red.fullHw.2) x⟩
    else fill⟩

def assigned [Zero 𝕜] (out : List (Nat × Image 𝕜)) (px : Pixel) : 𝕜 :=
  match out.lookup px.leaf with
  | some image => image.at_ px.batch px.channel px.row px.col
  | none => 0

end

section

variable {𝕜 : Type} [Zero 𝕜] [LinearOrder 𝕜] {space : Space 𝕜} {ranges : InputRanges 𝕜} {red : Reduction}
  {w : Pixel → 𝕜} {p q i l l' m m' : Nat} {big : Image 𝕜}

theorem liftLeaf_iff (hi : i ∈ red.leaves)
    (hshape : space.shape i = some [(sizes space red).batch i, (sizes space red).channels i, red.fullHw.1, red.fullHw.2])
    (hrows : AxisPair red.axes.1 red.fullHw.1 red.reducedHw.1 l l')
    (hcols : AxisPair red.axes.2 red.fullHw.2 red.reducedHw.2 m m') :
    liftLeaf space ranges red (cexOf space red w) p q i = .ok (some big) ↔
      1 ≤ (sizes space red).batch i ∧ SliceSafe red.axes.1 red.fullHw.1 red.reducedHw.1 p ∧
        SliceSafe red.axes.2 red.fullHw.2 red.reducedHw.2 q ∧
        ∃ fill, fillOf (leafRange space ranges i) = .ok fill ∧ big = liftedImage space red w p q fill i := by
  rw [liftLeaf, cexOf, if_pos hi, hshape]
  dsimp only
  constructor
  · intro h
    obtain ⟨fill, hfill, h₁⟩ := bind_eq_ok h
    obtain ⟨big', hbig, h₂⟩ := bind_eq_ok h₁
    cases h₂
    rw [embed] at hbig
    split at hbig
    · cases hbig
    next hbatch =>
    split at hbig
    · cases hbig
    next hfits =>
    rw [not_or] at hbatch
    rw [Bool.not_eq_true, Bool.not_eq_false', Bool.and_eq_true, Bool.and_eq_true] at hfits
    cases hbig
    exact ⟨Nat.one_le_iff_ne_zero.mpr hbatch.1, (fits_slices hrows).mp hfits.1.2, (fits_slices hcols).mp hfits.2, fill, hfill, rfl⟩
  · rintro ⟨hbatch, hsafe, hsafe', fill, hfill, rfl⟩
    have hfits : fits ((sizes space red).channels i) ((sizes space red).channels i) = true := by
      rw [fits, decide_eq_true rfl, Bool.true_or]
    have hbatch' : ¬ ((sizes space red).batch i = 0 ∨ 1 = 0) := by omega
    rw [ok_bind hfill, embed, if_neg hbatch', hfits, (fits_slices hrows).mpr hsafe, (fits_slices hcols).mpr hsafe']
    rfl

end

variable {𝕜 : Type} [Field 𝕜] {space : Space 𝕜} {ranges : InputRanges 𝕜} {red : Reduction} {A A' B B' G G' : Grid 𝕜}
  {w : Pixel → 𝕜} {p q c : Nat} {out : List (Nat × Image 𝕜)} {v : Pixel → 𝕜}

theorem assigned_of_lookup {i : Nat} {image : Image 𝕜} (h : out.lookup i = some image) (b k y x : Nat) :
    assigned out ⟨i, b, k, y, x⟩ = image.at_ b k y x := by
  rw [assigned, h]

variable [LinearOrder 𝕜]

/-- The input that a lift has built lies in the box, and gives both roots at the full-size position the values that the
counterexample gives them at the reduced one. -/
structure Reproduces (space : Space 𝕜) (ranges : InputRanges 𝕜) (red : Reduction) (A A' B B' : Grid 𝕜) (w : Pixel → 𝕜)
    (c p q : Nat) (v : Pixel → 𝕜) : Prop where
  box : InBox space ranges red.leaves (fullShape space red) v
  batch : 0 < A.batch ∧ 0 < B.batch
  row : fullPosition red.axes.1 red.fullHw.1 red.reducedHw.1 p < A.rows
  col : fullPosition red.axes.2 red.fullHw.2 red.reducedHw.2 q < A.cols
  left : (A.at_ 0 c (fullPosition red.axes.1 red.fullHw.1 red.reducedHw.1 p)
    (fullPosition red.axes.2 red.fullHw.2 red.reducedHw.2 q)).eval v = (A'.at_ 0 c p q).eval w
  right : (B.at_ 0 c (fullPosition red.axes.1 red.fullHw.1 red.reducedHw.1 p)
    (fullPosition red.axes.2 red.fullHw.2 red.reducedHw.2 q)).eval v = (B'.at_ 0 c p q).eval w

def Lifts (space : Space 𝕜) (ranges : InputRanges 𝕜) (red : Reduction) (A A' B B' : Grid 𝕜) (w : Pixel → 𝕜)
    (c p q : Nat) : Prop :=
  ∃ out, lift space ranges red (cexOf space red w) (some [0, c, p, q]) = .ok (some out) ∧
    Reproduces space ranges red A A' B B' w c p q (assigned out)

/-- Every leaf has a batch, the fill value is in the range of every channel, and the patch of the position does not end
above the image. -/
structure LiftSafe (space : Space 𝕜) (ranges : InputRanges 𝕜) (red : Reduction) (p q : Nat) : Prop where
  batch : ∀ j ∈ red.leaves, 1 ≤ (sizes space red).batch j
  fill : ∀ j ∈ red.leaves, ∀ r, leafRange space ranges j = some r → ∃ v, fillOf (some r) = .ok v ∧
    ∀ c < (sizes space red).channels j, InRange r (fullShape space red j) [0, c, 0, 0] v
  rows : SliceSafe red.axes.1 red.fullHw.1 red.reducedHw.1 p
  cols : SliceSafe red.axes.2 red.fullHw.2 red.reducedHw.2 q

theorem lift_images (hshapes : ∀ j ∈ red.leaves, space.shape j =
      some [(sizes space red).batch j, (sizes space red).channels j, red.fullHw.1, red.fullHw.2])
    (h : Root space red A A') (hout : lift space ranges red (cexOf space red w) (some [0, c, p, q]) = .ok (some out))
    {j : Nat} (hj : j ∈ red.leaves) :
    1 ≤ (sizes space red).batch j ∧ SliceSafe red.axes.1 red.fullHw.1 red.reducedHw.1 p ∧
      SliceSafe red.axes.2 red.fullHw.2 red.reducedHw.2 q ∧ ∃ fill, fillOf (leafRange space ranges j) = .ok fill ∧
        ∀ b k y x, assigned out ⟨j, b, k, y, x⟩ = (liftedImage space red w p q fill j).at_ b k y x := by
  obtain ⟨big, hbig, hlookup⟩ := liftLeaves_eq_ok hout hj
  obtain ⟨hbatch, hsafe, hsafe', fill, hfill, rfl⟩ := (liftLeaf_iff hj (hshapes j hj) h.rows h.cols).mp hbig
  exact ⟨hbatch, hsafe, hsafe', fill, hfill, assigned_of_lookup hlookup⟩

theorem liftSafe_of_lifts (hshapes : ∀ j ∈ red.leaves, space.shape j =
      some [(sizes space red).batch j, (sizes space red).channels j, red.fullHw.1, red.fullHw.2])
    (hu : ∀ j ∈ red.leaves, (leafRange space ranges j).all uniformRange = true) (h : Pair space red A A' B B')
    (hlifts : Lifts space ranges red A A' B B' w c p q) : LiftSafe space ranges red p q := by
  obtain ⟨out, hout, hrep⟩ := hlifts
  obtain ⟨k, hk, -⟩ := h.left.leaf
  obtain ⟨-, hsafe, hsafe', -⟩ := lift_images hshapes h.left hout hk
  refine ⟨fun j hj => (lift_images hshapes h.left hout hj).1, fun j hj r hr => ?_, hsafe, hsafe'⟩
  obtain ⟨hbatch, -, -, fill, hfill, himage⟩ := lift_images hshapes h.left hout hj
  rw [hr] at hfill
  refine ⟨fill, hfill, fun ch hch => ?_⟩
  have huniform : uniformRange r = true := by
    have hall := hu j hj
    rw [hr] at hall
    exact hall
  obtain ⟨y, hy, huncovered⟩ := exists_uncovered h.left.rows p
  have hcols := h.left.cols.le
  have hin := hrep.box j hj r hr 0 ch y 0 (mem_indices_four.mpr ⟨hbatch, hch, hy, by omega⟩)
  have hvalue : assigned out ⟨j, 0, ch, y, 0⟩ = fill := by
    rw [himage]
    exact if_neg fun hcond => huncovered hcond.2.1
  rw [hvalue] at hin
  exact inRange_uniform huniform hin

theorem box_of_safe (hu : ∀ j ∈ red.leaves, (leafRange space ranges j).all uniformRange = true)
    (h : Root space red A A') (hsafe : LiftSafe space ranges red p q)
    (hw : InBox space ranges red.leaves (reducedShape space red) w)
    (hv : ∀ j ∈ red.leaves, ∃ fill, fillOf (leafRange space ranges j) = .ok fill ∧
      ∀ b k y x, v ⟨j, b, k, y, x⟩ = (liftedImage space red w p q fill j).at_ b k y x) :
    InBox space ranges red.leaves (fullShape space red) v := by
  intro j hj r hr b k y x hidx
  obtain ⟨-, hk, -, -⟩ := mem_indices_four.mp hidx
  have huniform : uniformRange r = true := by
    have hall := hu j hj
    rw [hr] at hall
    exact hall
  obtain ⟨fill, hfill, himage⟩ := hv j hj
  rw [himage, liftedImage]
  dsimp only
  split
  · next hcond =>
    rw [pick_of_lt hk]
    exact inRange_uniform huniform (hw j hj r hr 0 k _ _
      (mem_indices_four.mpr ⟨by decide, hk, from_lt h.rows hsafe.rows hcond.2.1, from_lt h.cols hsafe.cols hcond.2.2⟩))
  · obtain ⟨fill', hfill', hin⟩ := hsafe.fill j hj r hr
    rw [hr, hfill'] at hfill
    cases hfill
    exact inRange_uniform huniform (hin k hk)

theorem values_of_safe (h : Root space red G G') (hc : c < G.channels) (hp : p < G'.rows) (hq : q < G'.cols)
    (hv : ∀ j ∈ red.leaves, ∃ fill, fillOf (leafRange space ranges j) = .ok fill ∧
      ∀ b k y x, v ⟨j, b, k, y, x⟩ = (liftedImage space red w p q fill j).at_ b k y x) :
    fullPosition red.axes.1 red.fullHw.1 red.reducedHw.1 p < G.rows ∧
      fullPosition red.axes.2 red.fullHw.2 red.reducedHw.2 q < G.cols ∧
      (G.at_ 0 c (fullPosition red.axes.1 red.fullHw.1 red.reducedHw.1 p)
        (fullPosition red.axes.2 red.fullHw.2 red.reducedHw.2 q)).eval v = (G'.at_ 0 c p q).eval w := by
  obtain ⟨k, -, hstep⟩ := h.rows.step
  obtain ⟨k', -, hstep'⟩ := h.cols.step
  obtain ⟨hrow, hty⟩ := fullPosition_twin h.rows.aligned hstep h.rows.safe' (Int.ofNat_lt.mpr hp)
  obtain ⟨hcol, htx⟩ := fullPosition_twin h.cols.aligned hstep' h.cols.safe' (Int.ofNat_lt.mpr hq)
  refine ⟨Int.ofNat_lt.mp hrow, Int.ofNat_lt.mp hcol, ?_⟩
  have hsame := h.same 0 c _ p _ q _ _ hc (Int.ofNat_lt.mp hrow) hp (Int.ofNat_lt.mp hcol) hq hty htx
  have hzero : ∀ n, pick n 0 = 0 := by
    intro n
    rw [pick, ite_self]
  rw [hzero] at hsame
  rw [hsame]
  apply Expr.eval_rename
  apply (h.patch c p q hc hp hq).mono
  intro px hpx
  obtain ⟨fill, -, himage⟩ := hv px.leaf hpx.leaf
  obtain ⟨hhas, hfrom⟩ := from_slices h.rows (Int.ofNat_lt.mp hpx.row.1) hpx.row.2.1 hpx.row.2.2
  obtain ⟨hhas', hfrom'⟩ := from_slices h.cols (Int.ofNat_lt.mp hpx.col.1) hpx.col.2.1 hpx.col.2.2
  obtain ⟨leaf, batch, channel, row, col⟩ := px
  have hbatch := hpx.batch
  have hchannel := hpx.channel
  subst hbatch
  rw [move, himage, liftedImage, hzero]
  dsimp only
  rw [if_pos ⟨rfl, hhas, hhas'⟩, rowSpan, colSpan, hfrom, hfrom', pick_of_lt hchannel]

theorem lifts_of_safe (hshapes : ∀ j ∈ red.leaves, space.shape j =
      some [(sizes space red).batch j, (sizes space red).channels j, red.fullHw.1, red.fullHw.2])
    (hu : ∀ j ∈ red.leaves, (leafRange space ranges j).all uniformRange = true) (h : Pair space red A A' B B')
    (hw : InBox space ranges red.leaves (reducedShape space red) w) (hcA : c < A.channels) (hcB : c < B.channels)
    (hp : p < A'.rows) (hq : q < A'.cols) (hsafe : LiftSafe space ranges red p q) :
    Lifts space ranges red A A' B B' w c p q := by
  have hfills : ∀ j ∈ red.leaves, ∃ fill, fillOf (leafRange space ranges j) = .ok fill := by
    intro j hj
    cases hr : leafRange space ranges j with
    | none => exact ⟨0, rfl⟩
    | some r =>
      obtain ⟨v, hv, -⟩ := hsafe.fill j hj r hr
      exact ⟨v, hv⟩
  obtain ⟨out, hout⟩ : ∃ out, lift space ranges red (cexOf space red w) (some [0, c, p, q]) = .ok (some out) := by
    apply liftLeaves_ok
    intro j hj
    obtain ⟨fill, hfill⟩ := hfills j hj
    exact ⟨_, (liftLeaf_iff hj (hshapes j hj) h.left.rows h.left.cols).mpr
      ⟨hsafe.batch j hj, hsafe.rows, hsafe.cols, fill, hfill, rfl⟩⟩
  have hvalues : ∀ j ∈ red.leaves, ∃ fill, fillOf (leafRange space ranges j) = .ok fill ∧
      ∀ b k y x, assigned out ⟨j, b, k, y, x⟩ = (liftedImage space red w p q fill j).at_ b k y x :=
    fun j hj => (lift_images hshapes h.left hout hj).2.2.2
  obtain ⟨hrow, hcol, hleft⟩ := values_of_safe h.left hcA hp hq hvalues
  obtain ⟨-, -, hright⟩ := values_of_safe h.right hcB (h.rows' ▸ hp) (h.cols' ▸ hq) hvalues
  obtain ⟨i, hi, hbatch⟩ := h.left.leaf
  obtain ⟨j, hj, hbatch'⟩ := h.right.leaf
  have hposA := hsafe.batch i hi
  have hposB := hsafe.batch j hj
  exact ⟨out, hout, box_of_safe hu h.left hsafe hw hvalues, ⟨by omega, by omega⟩, hrow, hcol, hleft, hright⟩

end Onnxsim.Certify.Reproduction

namespace Onnxsim.Certify.ShrinkVerdicts

open Overflow.Arrays Windows Shrinking Completeness
  Transfer Lifting Reproduction

section

variable {𝕜 : Type} [Field 𝕜] {sqrt : 𝕜 → 𝕜} {space : Space 𝕜} {cut : Nat → Bool} {fuel f f' a b : Nat}
  {ranges : InputRanges 𝕜} {red : Reduction} {A A' B B' : Grid 𝕜}

theorem pair_of_plan (hplan : planReduction space cut fuel a b ranges = .ok red)
    (hA : encode sqrt space cut (fun _ => none) f a = .ok A) (hB : encode sqrt space cut (fun _ => none) f' b = .ok B) :
    ∃ A' B', encode sqrt space cut (red.shape space) f a = .ok A' ∧ encode sqrt space cut (red.shape space) f' b = .ok B' ∧
      Pair space red A A' B B' := by
  obtain ⟨ga, gb, la, lb, hp⟩ := planReduction_eq_ok hplan
  obtain ⟨A', B', hA', hB', hleft, hright, hrows, hcols, hrows', hcols', hbatch⟩ := roots_of_planned hp hA hB
  exact ⟨A', B', hA', hB', hleft, hright, hrows, hcols, hrows', hcols', hbatch⟩

variable [LinearOrder 𝕜]

/-- The roots disagree at position `(p, q)` of channel `c`, for the pixels `w` of the reduced leaves. -/
structure Violation (space : Space 𝕜) (ranges : InputRanges 𝕜) (red : Reduction) (A' B' : Grid 𝕜) (atol rtol : 𝕜)
    (w : Pixel → 𝕜) (c p q : Nat) : Prop where
  box : InBox space ranges red.leaves (reducedShape space red) w
  channel : c < A'.channels ∧ c < B'.channels
  row : p < A'.rows
  col : q < A'.cols
  differs : ¬ Close atol rtol ((A'.at_ 0 c p q).eval w) ((B'.at_ 0 c p q).eval w)

/-- Shrinking loses no position, what holds at the reduced extents holds at the full ones, and every reduced counterexample
is lifted to a full-size one. -/
structure Faithful (space : Space 𝕜) (ranges : InputRanges 𝕜) (red : Reduction) (A A' B B' : Grid 𝕜) (atol rtol : 𝕜) :
    Prop where
  complete : Complete space red A A' B B'
  transfers : Transfers space red ranges A A' B B' atol rtol
  lifts : ∀ w c p q, Violation space ranges red A' B' atol rtol w c p q → Lifts space ranges red A A' B B' w c p q

end

def plainAttrs : Attrs ℚ := ⟨"NOTSET", [1, 1], [1, 1], [0, 0, 0, 0], 1, 0, false, false⟩

/-- A model that negates its input, and one that returns it. -/
def negated : Space ℚ where
  defs := [.input "x", .op "" .neg plainAttrs [some 0] 0, .op "" .identity plainAttrs [some 0] 0]
  shape _ := some [1, 2, 3, 3]
  isFloat _ := true
  kernels := by
    intro i x w domain attrs inputs out rest weight hdef
    rcases i with _ | _ | _ | i
    · cases hdef
    · cases hdef
    · cases hdef
    · cases hdef

def channelBound (a b : ℚ) : NDArray ℚ := ⟨[1, 2, 1, 1], [a, b], rfl⟩

/-- The first channel is positive, the second one negative. -/
def signedRanges (name : String) : Option (NDArray ℚ × NDArray ℚ) :=
  if name = "x" then some (channelBound 1 (-2), channelBound 2 (-1)) else none

def negatedPlan : Reduction := ⟨(3, 3), (1, 1), (unitAxis, unitAxis), [0]⟩

theorem plan_negated : planReduction negated (fun _ => false) 3 1 2 signedRanges = .ok negatedPlan := rfl

/-- The pixels of one image, on the bounds of their ranges. -/
def signedPixels (px : Pixel) : ℚ := if px.channel = 0 then 1 else -1

def negatedGrid (h w : Nat) : Grid ℚ := ⟨1, 2, h, w, fun b c y x => .neg (.var ⟨0, b, c, y, x⟩)⟩

def identityGrid (h w : Nat) : Grid ℚ := ⟨1, 2, h, w, fun b c y x => .var ⟨0, b, c, y, x⟩⟩

theorem inRange_first (y x : Nat) : InRange (channelBound 1 (-2), channelBound 2 (-1)) [1, 2, 1, 1] [0, 0, y, x] 1 :=
  ⟨1, rfl, 2, rfl, le_rfl, by decide⟩

theorem inRange_second (y x : Nat) : InRange (channelBound 1 (-2), channelBound 2 (-1)) [1, 2, 1, 1] [0, 1, y, x] (-1) :=
  ⟨-2, rfl, -1, rfl, by decide, le_rfl⟩

theorem signedPixels_inBox : InBox negated signedRanges negatedPlan.leaves (reducedShape negated negatedPlan) signedPixels := by
  intro i hi r hr b c y x hidx
  cases List.mem_singleton.mp hi
  cases hr
  obtain ⟨hb, hc, hy, hx⟩ := mem_indices_four.mp hidx
  have hchannels : (sizes negated negatedPlan).channels 0 = 2 := rfl
  have hb0 : b = 0 := by omega
  have hcases : c = 0 ∨ c = 1 := by omega
  subst hb0
  rcases hcases with rfl | rfl
  · exact inRange_first y x
  · exact inRange_second y x

theorem encode_negated : encode id negated (fun _ => false) (fun _ => none) 3 1 = .ok (negatedGrid 3 3) := rfl

theorem encode_identity : encode id negated (fun _ => false) (fun _ => none) 3 2 = .ok (identityGrid 3 3) := rfl

theorem encode_negated_reduced :
    encode id negated (fun _ => false) (negatedPlan.shape negated) 3 1 = .ok (negatedGrid 1 1) := rfl

theorem encode_identity_reduced :
    encode id negated (fun _ => false) (negatedPlan.shape negated) 3 2 = .ok (identityGrid 1 1) := rfl

theorem not_liftSafe (p q : Nat) : ¬ LiftSafe negated signedRanges negatedPlan p q := by
  intro hsafe
  obtain ⟨v, hv, hin⟩ := hsafe.fill 0 List.mem_cons_self _ rfl
  have hfill : fillOf (some (channelBound 1 (-2), channelBound 2 (-1))) = .ok 0 := by
    decide
  obtain ⟨lo, hlo, hi, hhi, hle, -⟩ := hin 0 (by decide)
  rw [hfill] at hv
  cases hv
  cases hlo
  exact absurd hle (by decide)

end Onnxsim.Certify.ShrinkVerdicts
