import Onnxsim.Passes.FusedPads

namespace Onnxsim.Passes.PadWindows

open List Option Overflow.Arrays FusedPads Pooling Windows
open Paddings (explicitAxes_spec grid_explicit grid_lengths paddedShape_length)

variable {b e : Int} {begins ends : List Int} {axes : List Axis}

def throughAxis (b : Int) (n : Nat) : Cell Nat → Cell Nat
  | .element q => if 0 ≤ (q : Int) - b ∧ (q : Int) - b < n then .element ((q : Int) - b).toNat else .padding
  | c => c

theorem through_element (begins : List Int) (sizes q : List Nat) :
    through begins sizes (.element q) = ((unpad begins sizes q).map Cell.element).getD .padding := by
  rw [through]
  cases unpad begins sizes q <;> rfl

theorem throughAxis_element (b : Int) (n q : Nat) : throughAxis b n (.element q) =
    if 0 ≤ (q : Int) - b ∧ (q : Int) - b < n then .element ((q : Int) - b).toNat else .padding := rfl

theorem through_cons (b : Int) (begins : List Int) (n : Nat) (sizes : List Nat) (c : Cell Nat) (cs : Cell (List Nat)) :
    through (b :: begins) (n :: sizes) (c.cons cs) = (throughAxis b n c).cons (through begins sizes cs) := by
  cases c with
  | outside => rfl
  | padding =>
    cases cs with
    | element is =>
      rw [through_element]
      cases unpad begins sizes is <;> rfl
    | padding => rfl
    | outside => rfl
  | element i =>
    rw [throughAxis_element]
    cases cs with
    | element is =>
      rw [through_element, Cell.cons, through_element, unpad]
      split
      · cases unpad begins sizes is <;> rfl
      · cases unpad begins sizes is <;> rfl
    | padding => split <;> rfl
    | outside => split <;> rfl

theorem throughAxis_cell (a : Axis) (hb : 0 ≤ b) (he : 0 ≤ e) (hbegin : 0 ≤ a.padBegin) (hend : 0 ≤ a.padEnd)
    (n o j : Nat) : throughAxis b n (a.cell ((n : Int) + b + e).toNat o j) = (a.add b e).cell n o j := by
  have hpos : (a.add b e).position o j = a.position o j - b := by
    simp only [Axis.position, Axis.add]
    omega
  have hfirst : (a.add b e).padBegin = a.padBegin + b := rfl
  have hlast : (a.add b e).padEnd = a.padEnd + e := rfl
  unfold Axis.cell
  rw [hpos, hfirst, hlast]
  by_cases hy : 0 ≤ a.position o j ∧ a.position o j < ((n : Int) + b + e).toNat
  · rw [if_pos hy]
    show (if _ then _ else _) = _
    rw [Int.toNat_of_nonneg hy.1]
    by_cases hx : 0 ≤ a.position o j - b ∧ a.position o j - b < n
    · rw [if_pos hx, if_pos hx]
    · rw [if_neg hx, if_neg hx, if_pos (by omega)]
  · rw [if_neg hy]
    by_cases hpad : -a.padBegin ≤ a.position o j ∧ a.position o j < ((n : Int) + b + e).toNat + a.padEnd
    · rw [if_pos hpad, if_neg (by omega), if_pos (by omega)]
      rfl
    · rw [if_neg hpad, if_neg (by omega), if_neg (by omega)]
      rfl

theorem through_cells {sizes os js : List Nat} (ha : axes.length = sizes.length) (hb : begins.length = sizes.length)
    (he : ends.length = sizes.length) (hos : os.length = sizes.length) (hjs : js.length = sizes.length)
    (hb0 : ∀ b ∈ begins, 0 ≤ b) (he0 : ∀ e ∈ ends, 0 ≤ e) (hown : ∀ a ∈ axes, 0 ≤ a.padBegin ∧ 0 ≤ a.padEnd) :
    through begins sizes (cells axes (paddedShape begins ends sizes) os js) =
      cells (addPads axes begins ends) sizes os js := by
  induction sizes generalizing axes begins ends os js with
  | nil =>
    cases eq_nil_of_length_eq_zero ha
    cases eq_nil_of_length_eq_zero hb
    rfl
  | cons n sizes ih =>
    obtain ⟨a, axes, rfl⟩ := exists_cons_of_length_eq_add_one ha
    obtain ⟨b, begins, rfl⟩ := exists_cons_of_length_eq_add_one hb
    obtain ⟨e, ends, rfl⟩ := exists_cons_of_length_eq_add_one he
    obtain ⟨o, os, rfl⟩ := exists_cons_of_length_eq_add_one hos
    obtain ⟨j, js, rfl⟩ := exists_cons_of_length_eq_add_one hjs
    rw [forall_mem_cons] at hb0 he0 hown
    rw [addPads, paddedShape, cells, cells, through_cons, throughAxis_cell a hb0.1 he0.1 hown.1.1 hown.1.2,
      ih (by simpa using ha) (by simpa using hb) (by simpa using he) (by simpa using hos) (by simpa using hjs)
        hb0.2 he0.2 hown.2]

theorem outSize_add_iff (a : Axis) (hb : 0 ≤ b) (he : 0 ≤ e) (n : Nat) :
    (a.add b e).outSize true n = a.outSize true ((n : Int) + b + e).toNat ↔ StartsOutside a b e n := by
  have hroom : (a.add b e).room n = a.room ((n : Int) + b + e).toNat := by
    simp only [Axis.room, Axis.add, Axis.extent]
    omega
  have hstride : (a.add b e).stride = a.stride := rfl
  have hbegin : (a.add b e).padBegin = a.padBegin + b := rfl
  have hsize : (((n : Int) + b + e).toNat : Int) = n + b + e := Int.toNat_of_nonneg (by omega)
  unfold StartsOutside Axis.outSize
  rw [hroom, hstride, hbegin, if_pos rfl, if_pos rfl]
  show (if _ ≤ extraWindow a _ * _ then (extraWindow a _).toNat else (extraWindow a _ + 1).toNat) =
    (if _ ≤ extraWindow a _ * _ then (extraWindow a _).toNat else (extraWindow a _ + 1).toNat) ↔ _
  rw [hsize]
  generalize extraWindow a ((n : Int) + b + e).toNat = c
  generalize c * (a.stride : Int) = start
  split_ifs <;> omega

theorem outSizes_add_iff {sizes : List Nat} (ha : axes.length = sizes.length) (hb : begins.length = sizes.length)
    (he : ends.length = sizes.length) (hb0 : ∀ b ∈ begins, 0 ≤ b) (he0 : ∀ e ∈ ends, 0 ≤ e) (ceil : Bool) :
    List.zipWith (Axis.outSize ceil) (addPads axes begins ends) sizes =
      List.zipWith (Axis.outSize ceil) axes (paddedShape begins ends sizes) ↔
        ceil = false ∨ AllStartOutside axes begins ends sizes := by
  cases ceil with
  | false => exact ⟨fun _ => Or.inl rfl, fun _ => outSizes_add ha hb he hb0 he0⟩
  | true =>
    induction sizes generalizing axes begins ends with
    | nil =>
      have hzip : List.zipWith (Axis.outSize true) axes (paddedShape begins ends []) = [] := by
        cases begins <;> cases ends <;> simp [paddedShape]
      rw [hzip, zipWith_nil_right]
      cases axes <;> cases begins <;> cases ends <;> simp [AllStartOutside]
    | cons n sizes ih =>
      obtain ⟨a, axes, rfl⟩ := exists_cons_of_length_eq_add_one ha
      obtain ⟨b, begins, rfl⟩ := exists_cons_of_length_eq_add_one hb
      obtain ⟨e, ends, rfl⟩ := exists_cons_of_length_eq_add_one he
      rw [forall_mem_cons] at hb0 he0
      rw [addPads, paddedShape, zipWith_cons_cons, zipWith_cons_cons, List.cons.injEq,
        outSize_add_iff a hb0.1 he0.1, ih (by simpa using ha) (by simpa using hb) (by simpa using he) hb0.2 he0.2,
        AllStartOutside]
      simp

variable {dilations strides : List Nat} {own pads : List Int} {nd : Nat}

theorem explicitAxes_zipWith {kernel : List Nat} {bs es : List Int}
    (h : explicitAxes kernel strides dilations begins ends = some axes) (hb : bs.length = kernel.length)
    (he : es.length = kernel.length) :
    explicitAxes kernel strides dilations (List.zipWith (· + ·) begins bs) (List.zipWith (· + ·) ends es) =
      some (addPads axes bs es) := by
  fun_induction explicitAxes kernel strides dilations begins ends generalizing axes bs es with
  | case1 k kernel s strides d dilations b begins e ends ih =>
    obtain ⟨rest, hrest, rfl⟩ := map_eq_some_iff.mp h
    obtain ⟨b', bs, rfl⟩ := exists_cons_of_length_eq_add_one hb
    obtain ⟨e', es, rfl⟩ := exists_cons_of_length_eq_add_one he
    rw [zipWith_cons_cons, zipWith_cons_cons, explicitAxes, ih hrest (by simpa using hb) (by simpa using he)]
    rfl
  | case2 =>
    cases h
    rfl
  | case3 => cases h

theorem explicitAxes_pads {P : Int → Prop} {kernel : List Nat}
    (h : explicitAxes kernel strides dilations begins ends = some axes) (hb0 : ∀ b ∈ begins, P b)
    (he0 : ∀ e ∈ ends, P e) : ∀ a ∈ axes, P a.padBegin ∧ P a.padEnd := by
  fun_induction explicitAxes kernel strides dilations begins ends generalizing axes with
  | case1 k kernel s strides d dilations b begins e ends ih =>
    obtain ⟨rest, hrest, rfl⟩ := map_eq_some_iff.mp h
    rw [forall_mem_cons] at hb0 he0 ⊢
    exact ⟨⟨hb0.1, he0.1⟩, ih hrest hb0.2 he0.2⟩
  | case2 =>
    cases h
    simp
  | case3 => cases h

theorem mapIdx_getD {l : List Int} (h : own.length = l.length) :
    (own.mapIdx fun i v => v + l.getD i 0) = List.zipWith (· + ·) own l := by
  apply ext_getElem
  · rw [length_mapIdx, length_zipWith, h, Nat.min_self]
  · intro i h₁ h₂
    rw [length_mapIdx] at h₁
    rw [getElem_mapIdx, getElem_zipWith, getD_eq_getElem l 0 (h ▸ h₁)]

theorem added_eq (hpads : pads.length = 2 * (nd + 2)) (hown : own.length = 2 * nd) :
    added pads own = List.zipWith (· + ·) (own.take nd) ((pads.take (nd + 2)).drop 2) ++
      List.zipWith (· + ·) (own.drop nd) ((pads.drop (nd + 2)).drop 2) := by
  have hhalf : pads.length / 2 = nd + 2 := by omega
  have hspatial : spatialPads pads = (pads.take (nd + 2)).drop 2 ++ (pads.drop (nd + 2)).drop 2 := by
    have hrest : (pads.drop (nd + 2 + 2)).length ≤ nd := by
      rw [List.length_drop]
      omega
    rw [spatialPads, hhalf, Nat.add_sub_cancel, drop_take, Nat.add_sub_cancel, take_of_length_le hrest,
      List.drop_drop]
  have hlen : ((pads.take (nd + 2)).drop 2).length = nd := by
    rw [List.length_drop, length_take]
    omega
  have hlen' : ((pads.drop (nd + 2)).drop 2).length = nd := by
    rw [List.length_drop, List.length_drop]
    omega
  have hall : own.length = (spatialPads pads).length := by
    rw [hspatial, length_append, hlen, hlen']
    omega
  rw [added, mapIdx_getD hall, hspatial]
  conv_lhs => rw [← take_append_drop nd own]
  apply zipWith_append
  rw [length_take, hlen]
  omega

variable {attrs : Attributes} {kernel sizes : List Nat} {g : Grid}

theorem grid_parts (hmode : attrs.autoPad.getD .notset = .notset) (hgrid : grid attrs kernel sizes = some g) :
    (∀ p ∈ attrs.pads.getD (List.replicate (2 * kernel.length) 0), 0 ≤ p) ∧
    explicitAxes kernel (attrs.strides.getD (List.replicate kernel.length 1))
      (attrs.dilations.getD (List.replicate kernel.length 1))
      ((attrs.pads.getD (List.replicate (2 * kernel.length) 0)).take kernel.length)
      ((attrs.pads.getD (List.replicate (2 * kernel.length) 0)).drop kernel.length) = some g.axes ∧
    g.outSizes = List.zipWith (Axis.outSize attrs.ceilMode) g.axes sizes := by
  have hlen := (grid_lengths hgrid).1
  unfold grid at hgrid
  simp only [if_pos hlen, hmode] at hgrid
  split at hgrid
  · next hnonneg =>
    obtain ⟨axes, haxes, rfl⟩ := map_eq_some_iff.mp hgrid
    exact ⟨hnonneg, haxes, rfl⟩
  · cases hgrid

def beginsOf (nd : Nat) (pads : List Int) : List Int := (pads.take (nd + 2)).drop 2

def endsOf (nd : Nat) (pads : List Int) : List Int := (pads.drop (nd + 2)).drop 2

theorem length_beginsOf (h : pads.length = 2 * (nd + 2)) : (beginsOf nd pads).length = nd := by
  rw [beginsOf, List.length_drop, length_take]
  omega

theorem length_endsOf (h : pads.length = 2 * (nd + 2)) : (endsOf nd pads).length = nd := by
  rw [endsOf, List.length_drop, List.length_drop]
  omega

theorem grid_added (hmode : attrs.autoPad.getD .notset = .notset) (hpads : pads.length = 2 * (sizes.length + 2))
    (hnonneg : ∀ v ∈ pads, 0 ≤ v)
    (hgrid : grid attrs kernel (paddedShape (beginsOf sizes.length pads) (endsOf sizes.length pads) sizes) = some g) :
    grid { attrs with pads := some (added pads (ownPads attrs pads)) } kernel sizes =
      some ⟨addPads g.axes (beginsOf sizes.length pads) (endsOf sizes.length pads), List.zipWith (Axis.outSize attrs.ceilMode)
        (addPads g.axes (beginsOf sizes.length pads) (endsOf sizes.length pads)) sizes⟩ := by
  have hb := length_beginsOf hpads
  have he := length_endsOf hpads
  have hrank : sizes.length = kernel.length := (paddedShape_length hb he).symm.trans (grid_lengths hgrid).1
  obtain ⟨hown0, haxes, -⟩ := grid_parts hmode hgrid
  have hown : attrs.pads.getD (List.replicate (2 * kernel.length) 0) = ownPads attrs pads := by
    rw [ownPads, hpads, ← hrank]
    rfl
  rw [hown] at hown0 haxes
  obtain ⟨-, hbegins, hends, -⟩ := explicitAxes_spec haxes
  have hownLen : (ownPads attrs pads).length = 2 * sizes.length := by
    rw [length_take] at hbegins
    rw [List.length_drop] at hends
    omega
  have hsum : added pads (ownPads attrs pads) =
      List.zipWith (· + ·) ((ownPads attrs pads).take sizes.length) (beginsOf sizes.length pads) ++
        List.zipWith (· + ·) ((ownPads attrs pads).drop sizes.length) (endsOf sizes.length pads) := added_eq hpads hownLen
  rw [← hrank] at hbegins hends haxes
  have hzip : ∀ l l' : List Int, (∀ v ∈ l, 0 ≤ v) → (∀ v ∈ l', 0 ≤ v) → ∀ v ∈ List.zipWith (· + ·) l l', 0 ≤ v := by
    intro l l' hl hl' v hv
    rw [zipWith_eq_zipWith_take_min, mem_iff_getElem] at hv
    obtain ⟨i, hi, rfl⟩ := hv
    rw [getElem_zipWith]
    exact Int.add_nonneg (hl _ (mem_of_mem_take (getElem_mem _))) (hl' _ (mem_of_mem_take (getElem_mem _)))
  have hb0 : ∀ v ∈ beginsOf sizes.length pads, 0 ≤ v := fun v hv => hnonneg v (mem_of_mem_take (mem_of_mem_drop hv))
  have he0 : ∀ v ∈ endsOf sizes.length pads, 0 ≤ v := fun v hv => hnonneg v (mem_of_mem_drop (mem_of_mem_drop hv))
  have hfirst := hzip ((ownPads attrs pads).take sizes.length) _ (fun v hv => hown0 v (mem_of_mem_take hv)) hb0
  have hlast := hzip ((ownPads attrs pads).drop sizes.length) _ (fun v hv => hown0 v (mem_of_mem_drop hv)) he0
  have hlenFirst : (List.zipWith (· + ·) ((ownPads attrs pads).take sizes.length) (beginsOf sizes.length pads)).length =
      kernel.length := by
    rw [length_zipWith, hbegins, hb, Nat.min_self, hrank]
  have hgrid' : grid { attrs with pads := some (added pads (ownPads attrs pads)) } kernel sizes = _ :=
    grid_explicit hmode hrank hlenFirst hsum hfirst hlast
  have hsummed := explicitAxes_zipWith haxes (hb.trans hrank) (he.trans hrank)
  rw [hgrid', ← hrank]
  exact congrArg (Option.map fun axes => (⟨axes, List.zipWith (Axis.outSize attrs.ceilMode) axes sizes⟩ : Grid)) hsummed

theorem windowsAgree_plain {alike : List (Cell (List Nat)) → List (Cell (List Nat)) → Prop} (hrefl : ∀ l, alike l l)
    (hmode : attrs.autoPad.getD .notset = .notset) (hpads : pads.length = 2 * (sizes.length + 2))
    (hnonneg : ∀ v ∈ pads, 0 ≤ v) (hfirst : (pads.take (sizes.length + 2)).take 2 = [0, 0])
    (hlast : (pads.drop (sizes.length + 2)).take 2 = [0, 0])
    (hgrid : grid attrs kernel (paddedShape (beginsOf sizes.length pads) (endsOf sizes.length pads) sizes) = some g) :
    WindowsAgree alike { attrs with pads := some (added pads (ownPads attrs pads)) } (pads.take (sizes.length + 2))
      (pads.drop (sizes.length + 2)) kernel sizes g ↔
        attrs.ceilMode = false ∨ AllStartOutside g.axes (beginsOf sizes.length pads) (endsOf sizes.length pads) sizes := by
  have hgrid' := grid_added hmode hpads hnonneg hgrid
  have hb := length_beginsOf hpads
  have he := length_endsOf hpads
  have hb0 : ∀ b ∈ beginsOf sizes.length pads, 0 ≤ b :=
    fun b h => hnonneg b (mem_of_mem_take (mem_of_mem_drop h))
  have he0 : ∀ e ∈ endsOf sizes.length pads, 0 ≤ e :=
    fun e h => hnonneg e (mem_of_mem_drop (mem_of_mem_drop h))
  obtain ⟨hsizes, haxes, hout⟩ := grid_lengths hgrid
  rw [paddedShape_length hb he] at hsizes
  obtain ⟨hown0, hexplicit, hcount⟩ := grid_parts hmode hgrid
  have hown := explicitAxes_pads hexplicit (fun b h => hown0 b (mem_of_mem_take h))
    (fun e h => hown0 e (mem_of_mem_drop h))
  have ha : g.axes.length = sizes.length := haxes.trans hsizes.symm
  rw [← outSizes_add_iff ha hb he hb0 he0, ← hcount]
  constructor
  · rintro ⟨-, -, g', hg', hsame, -⟩
    rw [hgrid'] at hg'
    obtain rfl := Option.some.inj hg'
    exact hsame
  · intro hsame
    refine ⟨hfirst, hlast, _, hgrid', hsame, ?_⟩
    intro os hos
    have hwindow : ((indices kernel).map fun js => through (beginsOf sizes.length pads) sizes
        (cells g.axes (paddedShape (beginsOf sizes.length pads) (endsOf sizes.length pads) sizes) os js)) =
          (indices kernel).map (cells (addPads g.axes (beginsOf sizes.length pads) (endsOf sizes.length pads)) sizes os) := by
      apply map_congr_left
      intro js hjs
      have hlos := (length_of_mem_indices hos).trans (hout.trans hsizes.symm)
      have hljs := (length_of_mem_indices hjs).trans hsizes.symm
      exact through_cells ha hb he hlos hljs hb0 he0 hown
    show alike ((indices kernel).map fun js => through (beginsOf sizes.length pads) sizes
        (cells g.axes (paddedShape (beginsOf sizes.length pads) (endsOf sizes.length pads) sizes) os js)) _
    rw [hwindow]
    exact hrefl _

end Onnxsim.Passes.PadWindows
