import Onnxsim.Passes.Windows

namespace Onnxsim.Passes.Paddings

open List Option Overflow.Arrays Gathers Windows
open Reduce.Fusion (Dimension)

inductive Kind where
  | conv
  | averagePool
  | maxPool
  | other
deriving DecidableEq

/-- The recorded sizes of the input and of the weights, which are the second input, if there is one. -/
structure WindowNode where
  kind : Kind
  attrs : Attributes
  xSizes : Option (List Dimension)
  weights : Option (Option (List Dimension))

def staticSpatialShape (sizes : Option (List Dimension)) (nd : Nat) : Option (List Int) :=
  sizes.bind fun ds => if ds.length = nd + 2 then (ds.drop 2).mapM knownSize else none

def kernelOf (node : WindowNode) : Option (List Int) :=
  match node.attrs.kernelShape with
  | some kernel => some (kernel.map Nat.cast)
  | none =>
    match node.kind, node.weights with
    | .conv, some sizes => sizes.bind fun ds => (ds.drop 2).mapM knownSize
    | _, _ => none

def samePad1 (mode : AutoPad) (n kernel stride dilation : Int) : Int × Int :=
  let needed := max 0 (((n + stride - 1).tdiv stride - 1) * stride + ((kernel - 1) * dilation + 1) - n)
  match mode with
  | .valid => (0, 0)
  | .sameUpper => (needed.tdiv 2, needed - needed.tdiv 2)
  | _ => (needed - needed.tdiv 2, needed.tdiv 2)

def samePads (mode : AutoPad) : List Int → List Int → List Int → List Int → List (Int × Int)
  | n :: sizes, k :: kernel, s :: strides, d :: dilations =>
    samePad1 mode n k s d :: samePads mode sizes kernel strides dilations
  | _, _, _, _ => []

def explicitAutoPad (node : WindowNode) : Option Attributes :=
  let mode := node.attrs.autoPad.getD .notset
  if node.kind = .other ∨ mode = .notset then none
  else
    match kernelOf node with
    | none => none
    | some kernel =>
      match staticSpatialShape node.xSizes kernel.length with
      | none => none
      | some sizes =>
        let strides := node.attrs.strides.getD (List.replicate kernel.length 1)
        let dilations := node.attrs.dilations.getD (List.replicate kernel.length 1)
        if kernel ≠ [] ∧ strides.length = kernel.length ∧ dilations.length = kernel.length then
          let pads := samePads mode sizes kernel (strides.map Nat.cast) (dilations.map Nat.cast)
          some { node.attrs with autoPad := some .notset, pads := some (pads.map Prod.fst ++ pads.map Prod.snd) }
        else none

/-- The pads of the Pad that is put in front of the convolution. -/
structure Hoisted where
  padPads : List Int
  convAttrs : Attributes
deriving DecidableEq

def explicitConvPadding (kind : Kind) (attrs : Attributes) : Option Hoisted :=
  match attrs.pads with
  | none => none
  | some pads =>
    let half := pads.length / 2
    if kind = .conv ∧ pads ≠ [] ∧ pads.length % 2 = 0 ∧ pads.take half ≠ pads.drop half then
      some ⟨[0, 0] ++ pads.take half ++ [0, 0] ++ pads.drop half,
        { attrs with pads := some (List.replicate pads.length 0) }⟩
    else none

/-- A Conv whose weights are a constant of type float with the given sizes, if they are one. -/
structure DilatedConv where
  kind : Kind
  attrs : Attributes
  groupAttr : Option Int
  inputs : Nat
  weightSizes : Option (List Nat)
  outSizes : Option (List Dimension)

/-- The rewrite pads its input, and each tap convolves the slice from `tap * dilation` of the given length. -/
structure Taps where
  padPads : List Int
  taps : Nat
  dilation : Nat
  length : Nat
deriving DecidableEq

def pairPads (attrs : Attributes) : Int × Int :=
  match attrs.pads with
  | some [p, q] => (p, q)
  | _ => (0, 0)

def dilatedConvToTaps (node : DilatedConv) : Option Taps :=
  match node.attrs.dilations, node.weightSizes, node.outSizes with
  | some [d], some [_, _, taps], some [_, _, .size length] =>
    if node.kind = .conv ∧ (node.inputs = 2 ∨ node.inputs = 3) ∧ node.groupAttr.getD 1 = 1 ∧
        node.attrs.strides.getD [1] = [1] ∧ 2 ≤ d ∧ 0 < length then
      some ⟨[0, 0, (pairPads node.attrs).1, 0, 0, (pairPads node.attrs).2], taps, d, length.toNat⟩
    else none
  | _, _, _ => none

section

/-- The pads are not negative, and the node has the windows that its mode stands for. -/
structure ExplicitCorrect (attrs attrs' : Attributes) (kernel sizes : List Nat) : Prop where
  pads : ∃ pads, attrs'.pads = some pads ∧ ∀ p ∈ pads, 0 ≤ p
  grid : ∃ g, grid attrs kernel sizes = some g ∧ grid attrs' kernel sizes = some g

/-- Rounding up the number of windows without padding gives no further window. -/
def RoundsAlike (n : Nat) (a : Axis) : Prop :=
  (a.stride : Int) ∣ n - a.extent ∨ (n : Int) ≤ (((n : Int) - a.extent) / a.stride + 1) * a.stride ∨ n + a.stride < a.extent

def Hoisted.begins (h : Hoisted) : List Int := h.padPads.take (h.padPads.length / 2)

def Hoisted.ends (h : Hoisted) : List Int := h.padPads.drop (h.padPads.length / 2)

section

variable {α : Type} [Inhabited α] [Semiring α]

def Hoisted.run (h : Hoisted) (group : Nat) (x w : NDArray α) (bias : Option (NDArray α)) : Option (NDArray α) :=
  (pad h.begins h.ends 0 x).bind fun y => conv h.convAttrs group y w bias

/-- Wherever the convolution is defined, the two nodes compute it. -/
def HoistCorrect (α : Type) [Inhabited α] [Semiring α] (attrs : Attributes) (h : Hoisted) (group : Nat)
    (kernel sizes : List Nat) : Prop :=
  ∀ (batch : Nat) (x w : NDArray α) (bias : Option (NDArray α)) (z : NDArray α), Operands group batch sizes kernel x w →
    conv attrs group x w bias = some z → h.run group x w bias = some z

end

/-- Every tap of every window reads the same element, or none, before and behind the padding. -/
structure SameTaps (attrs attrs' : Attributes) (begins ends : List Int) (kernel sizes : List Nat) : Prop where
  begins_length : begins.length = sizes.length
  ends_length : ends.length = sizes.length
  grids : ∃ g g', grid attrs kernel sizes = some g ∧ grid attrs' kernel (paddedShape begins ends sizes) = some g' ∧
    g'.outSizes = g.outSizes ∧ ∀ os ∈ indices g.outSizes, ∀ js ∈ indices kernel,
      (cells g'.axes (paddedShape begins ends sizes) os js).read.bind (unpad begins sizes) =
        (cells g.axes sizes os js).read

instance (n : Nat) (a : Axis) : Decidable (RoundsAlike n a) := inferInstanceAs (Decidable (_ ∨ _))

end

variable {mode : AutoPad} {dilations strides : List Nat} {axes : List Axis}

section

variable {n s k d : Nat} {room c : Int}

theorem ceil_div (hn : 0 < n) (hs : 0 < s) : (n + s - 1) / s = if n % s = 0 then n / s else n / s + 1 := by
  have hdiv := Nat.div_add_mod n s
  have hmod := Nat.mod_lt n hs
  split
  · next hzero =>
    apply Nat.div_eq_of_lt_le
    · rw [Nat.mul_comm]
      omega
    · rw [Nat.add_mul, Nat.mul_comm]
      omega
  · next hpos =>
    apply Nat.div_eq_of_lt_le
    · rw [Nat.add_mul, Nat.mul_comm]
      omega
    · rw [Nat.add_mul, Nat.add_mul, Nat.mul_comm]
      omega

theorem needed_eq (d : Nat) (hn : 0 < n) (hk : 0 < k) (hs : 0 < s) :
    max 0 (((((n : Int) + s - 1).tdiv s - 1) * s + (((k : Int) - 1) * d + 1) - n)) = (samePad n k s d : Nat) := by
  have hcast : ((n : Int) + s - 1) = ((n + s - 1 : Nat) : Int) := by omega
  have hextent : ((k : Int) - 1) * d = (((k - 1) * d : Nat) : Int) := by
    rw [Nat.cast_mul, Nat.cast_sub hk, Nat.cast_one]
  rw [hcast, ← Int.ofNat_tdiv, hextent, ceil_div hn hs, samePad]
  generalize (k - 1) * d = e
  have hdiv := Nat.div_add_mod n s
  have hprod : ((n / s : Nat) : Int) * s = (s * (n / s) : Nat) := by
    rw [Nat.cast_mul, Int.mul_comm]
  split
  · rw [Int.sub_mul, hprod]
    omega
  · rw [Nat.cast_add, Nat.cast_one, Int.add_sub_cancel, hprod]
    omega

theorem samePad1_eq (hmode : mode ≠ .notset) (d : Nat) (hn : 0 < n) (hk : 0 < k) (hs : 0 < s) :
    samePad1 mode n k s d = ((autoAxis mode n k s d).padBegin, (autoAxis mode n k s d).padEnd) := by
  have hneeded := needed_eq d hn hk hs
  have hhalf : ((samePad n k s d : Nat) : Int).tdiv 2 = (samePad n k s d / 2 : Nat) := by
    rw [show (2 : Int) = ((2 : Nat) : Int) from rfl, ← Int.ofNat_tdiv]
  have hrest : ((samePad n k s d : Nat) : Int) - (samePad n k s d / 2 : Nat) = (samePad n k s d - samePad n k s d / 2 : Nat) := by
    omega
  simp only [samePad1, autoAxis, hneeded]
  cases mode with
  | notset => exact absurd rfl hmode
  | sameUpper => simp only [hhalf, hrest]
  | sameLower => simp only [hhalf, hrest]
  | valid => rfl

theorem padBegin_nonneg (mode : AutoPad) (n k s d : Nat) : 0 ≤ (autoAxis mode n k s d).padBegin := by
  cases mode with
  | notset => exact Int.le_refl _
  | sameUpper => exact Int.natCast_nonneg _
  | sameLower => exact Int.natCast_nonneg _
  | valid => exact Int.le_refl _

theorem padEnd_nonneg (mode : AutoPad) (n k s d : Nat) : 0 ≤ (autoAxis mode n k s d).padEnd := by
  cases mode with
  | notset => exact Int.le_refl _
  | sameUpper => exact Int.natCast_nonneg _
  | sameLower => exact Int.natCast_nonneg _
  | valid => exact Int.le_refl _

/-- The axes of a mode, beside the pads that the source computes. -/
structure Resolved (mode : AutoPad) (sizes kernel strides dilations : List Nat) (axes : List Axis) : Prop where
  auto_eq : autoAxes mode sizes kernel strides dilations = some axes
  length_eq : axes.length = sizes.length
  pads_eq : samePads mode (sizes.map Nat.cast) (kernel.map Nat.cast) (strides.map Nat.cast) (dilations.map Nat.cast) =
    axes.map fun a => (a.padBegin, a.padEnd)
  explicit_eq : explicitAxes kernel strides dilations (axes.map Axis.padBegin) (axes.map Axis.padEnd) = some axes
  axis_eq : ∀ q ∈ sizes.zip axes, ∃ k s d, 0 < q.1 ∧ 0 < k ∧ 0 < s ∧ q.2 = autoAxis mode q.1 k s d
  nonneg : ∀ a ∈ axes, 0 ≤ a.padBegin ∧ 0 ≤ a.padEnd

variable {sizes kernel : List Nat} {attrs : Attributes}

theorem exists_resolved (hmode : mode ≠ .notset) (hlen : sizes.length = kernel.length)
    (hstrides : strides.length = kernel.length) (hdilations : dilations.length = kernel.length)
    (hn : ∀ n ∈ sizes, 0 < n) (hk : ∀ k ∈ kernel, 0 < k) (hs : ∀ s ∈ strides, 0 < s) :
    ∃ axes, Resolved mode sizes kernel strides dilations axes := by
  induction kernel generalizing sizes strides dilations with
  | nil =>
    cases eq_nil_of_length_eq_zero hlen
    cases eq_nil_of_length_eq_zero hstrides
    cases eq_nil_of_length_eq_zero hdilations
    exact ⟨[], rfl, rfl, rfl, rfl, by simp, by simp⟩
  | cons k kernel ih =>
    obtain ⟨n, sizes, rfl⟩ := exists_cons_of_length_eq_add_one hlen
    obtain ⟨s, strides, rfl⟩ := exists_cons_of_length_eq_add_one hstrides
    obtain ⟨d, dilations, rfl⟩ := exists_cons_of_length_eq_add_one hdilations
    rw [forall_mem_cons] at hn hk hs
    obtain ⟨axes, hrest⟩ := ih (by simpa using hlen) (by simpa using hstrides) (by simpa using hdilations) hn.2 hk.2 hs.2
    refine ⟨autoAxis mode n k s d :: axes, ?_, ?_, ?_, ?_, ?_, ?_⟩
    · rw [autoAxes, hrest.auto_eq, map_some]
    · rw [length_cons, length_cons, hrest.length_eq]
    · rw [map_cons, map_cons, map_cons, map_cons, samePads, hrest.pads_eq, map_cons,
        samePad1_eq hmode d hn.1 hk.1 hs.1]
    · rw [map_cons, map_cons, explicitAxes, hrest.explicit_eq, map_some]
      cases mode <;> rfl
    · rw [zip_cons_cons, forall_mem_cons]
      exact ⟨⟨k, s, d, hn.1, hk.1, hs.1, rfl⟩, hrest.axis_eq⟩
    · rw [forall_mem_cons]
      exact ⟨⟨padBegin_nonneg _ _ _ _ _, padEnd_nonneg _ _ _ _ _⟩, hrest.nonneg⟩

theorem extent_eq (hk : 0 < k) : (autoAxis mode n k s d).extent = ((k - 1) * d + 1 : Nat) := by
  have haxis : (autoAxis mode n k s d).kernel = k ∧ (autoAxis mode n k s d).dilation = d := by
    cases mode <;> exact ⟨rfl, rfl⟩
  rw [Axis.extent, haxis.1, haxis.2, Nat.cast_add, Nat.cast_mul, Nat.cast_sub hk, Nat.cast_one]

theorem stride_eq (mode : AutoPad) (n k s d : Nat) : (autoAxis mode n k s d).stride = s := by
  cases mode <;> rfl

theorem room_same (hmode : mode = .sameUpper ∨ mode = .sameLower) (d : Nat) (hk : 0 < k) :
    (autoAxis mode n k s d).room n = n + samePad n k s d - ((k - 1) * d + 1 : Nat) := by
  rw [Axis.room, extent_eq hk]
  obtain rfl | rfl := hmode
  · show (n : Int) + (samePad n k s d / 2 : Nat) + (samePad n k s d - samePad n k s d / 2 : Nat) - _ = _
    omega
  · show (n : Int) + (samePad n k s d - samePad n k s d / 2 : Nat) + (samePad n k s d / 2 : Nat) - _ = _
    omega

theorem room_bounds (hn : 0 < n) (hs : 0 < s) :
    (n : Int) + samePad n k s d - ((k - 1) * d + 1 : Nat) = (((n + s - 1) / s : Nat) - 1) * s ∨
      (samePad n k s d = 0 ∧ (((n + s - 1) / s : Nat) - 1 : Int) * s < n - ((k - 1) * d + 1 : Nat) ∧
        (n : Int) - ((k - 1) * d + 1 : Nat) < ((n + s - 1) / s : Nat) * s ∧ (n : Int) ≤ ((n + s - 1) / s : Nat) * s) := by
  rw [ceil_div hn hs, samePad]
  generalize (k - 1) * d = e
  have hdiv := Nat.div_add_mod n s
  have hmod := Nat.mod_lt n hs
  have hprod : ((n / s : Nat) : Int) * s = (s * (n / s) : Nat) := by
    rw [Nat.cast_mul, Int.mul_comm]
  have hnext : ((n / s + 1 : Nat) : Int) * s = (s * (n / s) + s : Nat) := by
    rw [Nat.cast_add, Nat.cast_one, Int.add_mul, hprod]
    omega
  split
  · rw [Int.sub_mul, hprod]
    omega
  · rw [Int.sub_mul, hnext]
    omega

theorem last_start (hn : 0 < n) (hs : 0 < s) : (((n + s - 1) / s : Nat) - 1 : Int) * s < n := by
  have h : (((n + s - 1) / s : Nat) : Int) * s ≤ (n + s - 1 : Nat) := by exact_mod_cast Nat.div_mul_le_self _ _
  rw [Int.sub_mul]
  omega

theorem ceil_of_exact {s : Int} (hs : 0 < s) (c : Int) : -(-(c * s) / s) = c := by
  rw [← Int.neg_mul, Int.mul_ediv_cancel _ (by omega), Int.neg_neg]

theorem ceil_of_between {s : Int} (hs : 0 < s) (hlow : (c - 1) * s < room) (hhigh : room ≤ c * s) :
    -(-room / s) = c := by
  have h : -room / s = -c := by
    rw [Int.ediv_eq_iff_of_pos hs, Int.neg_mul]
    rw [Int.sub_mul] at hlow
    omega
  rw [h, Int.neg_neg]

theorem floor_of_between {s : Int} (hs : 0 < s) (hlow : c * s ≤ room) (hhigh : room < (c + 1) * s) :
    room / s = c := by
  rw [Int.ediv_eq_iff_of_pos hs]
  rw [Int.add_mul] at hhigh
  omega

theorem padBegin_zero (h : samePad n k s d = 0) : (autoAxis mode n k s d).padBegin = 0 := by
  cases mode <;> simp [autoAxis, h]

theorem outSize_same (hmode : mode = .sameUpper ∨ mode = .sameLower) (d : Nat) (ceil : Bool) (hn : 0 < n) (hk : 0 < k)
    (hs : 0 < s) :
    (autoAxis mode n k s d).outSize ceil n = autoSize mode n (autoAxis mode n k s d) := by
  have hsize : autoSize mode n (autoAxis mode n k s d) = (n + s - 1) / s := by
    obtain rfl | rfl := hmode <;> rfl
  have hs' : (0 : Int) < s := by omega
  have hroom := room_same hmode (n := n) (s := s) d hk
  have hstart := last_start hn hs
  have hpad := padBegin_nonneg mode n k s d
  rw [hsize, Axis.outSize, stride_eq, hroom]
  obtain hexact | ⟨hzero, hlow, hhigh, hle⟩ := room_bounds (k := k) (d := d) hn hs
  · rw [hexact, ceil_of_exact hs', Int.mul_ediv_cancel _ (by omega)]
    split
    · rw [if_neg (by omega)]
      omega
    · omega
  · rw [hzero, Nat.cast_zero, Int.add_zero, padBegin_zero hzero, Int.add_zero, ceil_of_between hs' hlow (by omega),
      floor_of_between hs' (Int.le_of_lt hlow) (by rw [Int.sub_add_cancel]; exact hhigh)]
    split
    · exact Int.toNat_natCast _
    · omega

theorem ceil_succ {s : Int} (hs : 0 < s) (room : Int) : -(-(room + 1) / s) = room / s + 1 := by
  have hdiv := Int.mul_ediv_add_emod room s
  have hmod := Int.emod_nonneg room (by omega : s ≠ 0)
  have hlt := Int.emod_lt_of_pos room hs
  apply ceil_of_between hs
  · rw [Int.add_sub_cancel, Int.mul_comm]
    omega
  · rw [Int.add_mul, Int.mul_comm (room / s)]
    omega

theorem outSize_valid_iff (d : Nat) (ceil : Bool) (hk : 0 < k) (hs : 0 < s) :
    (autoAxis .valid n k s d).outSize ceil n = autoSize .valid n (autoAxis .valid n k s d) ↔
      (ceil = true → RoundsAlike n (autoAxis .valid n k s d)) := by
  have hs' : (0 : Int) < s := by omega
  have hextent : 0 < (autoAxis .valid n k s d).extent := by
    rw [extent_eq hk]
    omega
  have hroom : (autoAxis .valid n k s d).room n = n - (autoAxis .valid n k s d).extent := by
    show (n : Int) + 0 + 0 - _ = _
    omega
  have hsize : autoSize .valid n (autoAxis .valid n k s d) = ((n - (autoAxis .valid n k s d).extent) / s + 1).toNat := by
    show (-(-((n : Int) - (autoAxis .valid n k s d).extent + 1) / s)).toNat = _
    rw [ceil_succ hs']
  rw [hsize, Axis.outSize, RoundsAlike, stride_eq, hroom]
  generalize (autoAxis .valid n k s d).extent = e at hextent
  show (if ceil = true then if (n : Int) + 0 ≤ _ then _ else _ else _) = _ ↔ _
  cases ceil with
  | false => simp
  | true =>
    simp only [if_true, forall_const, Int.add_zero]
    have hdiv := Int.mul_ediv_add_emod ((n : Int) - e) s
    have hmod := Int.emod_nonneg ((n : Int) - e) (by omega : (s : Int) ≠ 0)
    have hlt := Int.emod_lt_of_pos ((n : Int) - e) hs'
    rw [Int.mul_comm] at hdiv
    generalize hq : ((n : Int) - e) / s = q at hdiv
    by_cases hdvd : (s : Int) ∣ n - e
    · have hzero := Int.emod_eq_zero_of_dvd hdvd
      rw [hzero, Int.add_zero] at hdiv
      rw [← hdiv, ceil_of_exact hs', if_neg (by omega)]
      simp [hdvd, hdiv]
    · have hpos : ((n : Int) - e) % s ≠ 0 := fun h => hdvd (Int.dvd_of_emod_eq_zero h)
      have hceil : -(-((n : Int) - e) / s) = q + 1 := by
        apply ceil_of_between hs'
        · rw [Int.add_sub_cancel]
          omega
        · rw [Int.add_mul]
          omega
      rw [hceil]
      have hnext : (q + 1) * s = q * s + s := by rw [Int.add_mul, Int.one_mul]
      have hsmall : q + 2 ≤ 0 ↔ (n : Int) + s < e := by
        constructor
        · intro hle
          have : (q + 2) * s ≤ 0 := Int.mul_nonpos_of_nonpos_of_nonneg hle (by omega)
          rw [Int.add_mul] at this
          omega
        · intro hlt'
          by_contra hge
          have : 0 ≤ (q + 1) * s := Int.mul_nonneg (by omega) (by omega)
          omega
      split
      · next hle => simp [hle]
      · next hle =>
        simp only [hdvd, hle, false_or]
        rw [← hsmall]
        omega

theorem zipWith_eq_iff {f : Axis → Nat → Nat} {g : Nat → Axis → Nat} (hlen : axes.length = sizes.length) :
    List.zipWith f axes sizes = List.zipWith g sizes axes ↔ ∀ q ∈ sizes.zip axes, f q.2 q.1 = g q.1 q.2 := by
  induction sizes generalizing axes with
  | nil => simp
  | cons n sizes ih =>
    obtain ⟨a, axes, rfl⟩ := exists_cons_of_length_eq_add_one hlen
    rw [zipWith_cons_cons, zipWith_cons_cons, zip_cons_cons, forall_mem_cons, List.cons.injEq,
      ih (by simpa using hlen)]

theorem grid_auto (hmode : attrs.autoPad.getD .notset = mode) (hne : mode ≠ .notset)
    (hlen : sizes.length = kernel.length) :
    grid attrs kernel sizes = (autoAxes mode sizes kernel (attrs.strides.getD (List.replicate kernel.length 1))
      (attrs.dilations.getD (List.replicate kernel.length 1))).map fun axes => ⟨axes, List.zipWith (autoSize mode) sizes axes⟩ := by
  unfold grid
  simp only [if_pos hlen, hmode]

theorem grid_explicit {begins ends : List Int} (hmode : attrs.autoPad.getD .notset = .notset)
    (hlen : sizes.length = kernel.length) (hbegins : begins.length = kernel.length)
    (hpads : attrs.pads.getD (List.replicate (2 * kernel.length) 0) = begins ++ ends) (hb0 : ∀ b ∈ begins, 0 ≤ b)
    (he0 : ∀ e ∈ ends, 0 ≤ e) :
    grid attrs kernel sizes = (explicitAxes kernel (attrs.strides.getD (List.replicate kernel.length 1))
      (attrs.dilations.getD (List.replicate kernel.length 1)) begins ends).map fun axes =>
        ⟨axes, List.zipWith (Axis.outSize attrs.ceilMode) axes sizes⟩ := by
  have hnonneg : ∀ p ∈ begins ++ ends, 0 ≤ p := by
    intro p hp
    exact (mem_append.mp hp).elim (hb0 p) (he0 p)
  unfold grid
  simp only [if_pos hlen, hmode, hpads, if_pos hnonneg, take_left' hbegins, drop_left' hbegins]

theorem explicitAutoPad_iff {node : WindowNode} {attrs' : Attributes} (hfire : explicitAutoPad node = some attrs')
    (hkernel : kernelOf node = some (kernel.map Nat.cast))
    (hsizes : staticSpatialShape node.xSizes kernel.length = some (sizes.map Nat.cast))
    (hlen : sizes.length = kernel.length) (hn : ∀ n ∈ sizes, 0 < n) (hk : ∀ k ∈ kernel, 0 < k)
    (hs : ∀ s ∈ node.attrs.strides.getD (List.replicate kernel.length 1), 0 < s) :
    ExplicitCorrect node.attrs attrs' kernel sizes ↔ (node.attrs.ceilMode = true → node.attrs.autoPad = some .valid →
      ∀ g, grid node.attrs kernel sizes = some g → ∀ q ∈ sizes.zip g.axes, RoundsAlike q.1 q.2) := by
  unfold explicitAutoPad at hfire
  dsimp only at hfire
  split at hfire
  · cases hfire
  · next hguard =>
    push Not at hguard
    rw [hkernel] at hfire
    dsimp only at hfire
    rw [length_map, hsizes] at hfire
    dsimp only at hfire
    split at hfire
    · next hlens =>
      obtain ⟨hne, hstrides, hdilations⟩ := hlens
      generalize hmode : node.attrs.autoPad.getD .notset = mode at hguard hfire
      obtain ⟨axes, hres⟩ := exists_resolved hguard.2 hlen hstrides hdilations hn hk hs
      rw [hres.pads_eq, List.map_map, List.map_map] at hfire
      obtain rfl := Option.some.inj hfire
      have hgrid := grid_auto hmode hguard.2 hlen
      rw [hres.auto_eq, map_some] at hgrid
      have hb0 : ∀ b ∈ axes.map Axis.padBegin, 0 ≤ b := List.forall_mem_map.mpr fun a ha => (hres.nonneg a ha).1
      have he0 : ∀ e ∈ axes.map Axis.padEnd, 0 ≤ e := List.forall_mem_map.mpr fun a ha => (hres.nonneg a ha).2
      have hbegins : (axes.map Axis.padBegin).length = kernel.length := by rw [length_map, hres.length_eq, hlen]
      have hgrid' : grid { node.attrs with
          autoPad := some .notset, pads := some (axes.map Axis.padBegin ++ axes.map Axis.padEnd) } kernel sizes = _ :=
        grid_explicit rfl hlen hbegins rfl hb0 he0
      rw [hres.explicit_eq, map_some] at hgrid'
      have hsame : List.zipWith (Axis.outSize node.attrs.ceilMode) axes sizes = List.zipWith (autoSize mode) sizes axes ↔
          (node.attrs.ceilMode = true → node.attrs.autoPad = some .valid → ∀ q ∈ sizes.zip axes, RoundsAlike q.1 q.2) := by
        rw [zipWith_eq_iff hres.length_eq]
        have hvalid : node.attrs.autoPad = some .valid ↔ mode = .valid := by
          rw [← hmode]
          cases hauto : node.attrs.autoPad with
          | none => simp
          | some m => simp
        rw [hvalid]
        constructor
        · rintro h hceil rfl q hq
          obtain ⟨k, s, d, -, hk', hs', heq⟩ := hres.axis_eq q hq
          have := h q hq
          rw [heq] at this ⊢
          exact (outSize_valid_iff d _ hk' hs').mp this hceil
        · intro h q hq
          obtain ⟨k, s, d, hn', hk', hs', heq⟩ := hres.axis_eq q hq
          rw [heq]
          cases mode with
          | notset => exact absurd rfl hguard.2
          | sameUpper => exact outSize_same (Or.inl rfl) d _ hn' hk' hs'
          | sameLower => exact outSize_same (Or.inr rfl) d _ hn' hk' hs'
          | valid =>
            rw [outSize_valid_iff d _ hk' hs', ← heq]
            exact fun hceil => h hceil rfl q hq
      constructor
      · rintro ⟨-, g, hg, hg'⟩ hceil hauto g' hg''
        rw [hgrid] at hg hg''
        obtain rfl := Option.some.inj hg
        obtain rfl := Option.some.inj hg''
        refine hsame.mp ?_ hceil hauto
        have hlast := Option.some.inj (hgrid'.symm.trans hg')
        exact congrArg Grid.outSizes hlast
      · intro h
        refine ⟨⟨_, rfl, ?_⟩, ⟨_, hgrid, ?_⟩⟩
        · intro p hp
          exact (mem_append.mp hp).elim (hb0 p) (he0 p)
        · refine hgrid'.trans ?_
          congr 2
          exact hsame.mpr fun hceil hauto => h hceil hauto _ hgrid
    · cases hfire

end

variable {attrs attrs' : Attributes} {kernel sizes : List Nat} {begins ends : List Int} {g : Grid}

theorem autoAxes_length (h : autoAxes mode sizes kernel strides dilations = some axes) : axes.length = kernel.length := by
  fun_induction autoAxes mode sizes kernel strides dilations generalizing axes with
  | case1 n sizes k kernel s strides d dilations ih =>
    obtain ⟨rest, hrest, rfl⟩ := map_eq_some_iff.mp h
    rw [length_cons, length_cons, ih hrest]
  | case2 =>
    cases h
    rfl
  | case3 => cases h

theorem explicitAxes_spec (h : explicitAxes kernel strides dilations begins ends = some axes) :
    axes.length = kernel.length ∧ begins.length = kernel.length ∧ ends.length = kernel.length ∧
      ∃ axes₀, explicitAxes kernel strides dilations (List.replicate kernel.length 0) (List.replicate kernel.length 0) =
        some axes₀ ∧ addPads axes₀ begins ends = axes := by
  fun_induction explicitAxes kernel strides dilations begins ends generalizing axes with
  | case1 k kernel s strides d dilations b begins e ends ih =>
    obtain ⟨rest, hrest, rfl⟩ := map_eq_some_iff.mp h
    obtain ⟨haxes, hbegins, hends, axes₀, hzero, hadd⟩ := ih hrest
    refine ⟨?_, ?_, ?_, ⟨k, s, d, 0, 0⟩ :: axes₀, ?_, ?_⟩
    · rw [length_cons, length_cons, haxes]
    · rw [length_cons, length_cons, hbegins]
    · rw [length_cons, length_cons, hends]
    · rw [length_cons, replicate_succ, explicitAxes, hzero, map_some]
    · rw [addPads, hadd, Axis.add, Int.zero_add, Int.zero_add]
  | case2 =>
    cases h
    exact ⟨rfl, rfl, rfl, [], rfl, rfl⟩
  | case3 => cases h

theorem grid_lengths (h : grid attrs kernel sizes = some g) :
    sizes.length = kernel.length ∧ g.axes.length = kernel.length ∧ g.outSizes.length = kernel.length := by
  unfold grid at h
  dsimp only at h
  split at h
  · next hlen =>
    split at h
    · split at h
      · obtain ⟨axes, haxes, rfl⟩ := map_eq_some_iff.mp h
        have hspec := (explicitAxes_spec haxes).1
        refine ⟨hlen, hspec, ?_⟩
        show (List.zipWith _ axes sizes).length = _
        rw [length_zipWith, hspec, hlen, Nat.min_self]
      · cases h
    · obtain ⟨axes, haxes, rfl⟩ := map_eq_some_iff.mp h
      have hspec := autoAxes_length haxes
      refine ⟨hlen, hspec, ?_⟩
      show (List.zipWith _ sizes axes).length = _
      rw [length_zipWith, hspec, hlen, Nat.min_self]
  · cases h

theorem paddedShape_length (hb : begins.length = sizes.length) (he : ends.length = sizes.length) :
    (paddedShape begins ends sizes).length = sizes.length := by
  induction sizes generalizing begins ends with
  | nil =>
    cases eq_nil_of_length_eq_zero hb
    rfl
  | cons n sizes ih =>
    obtain ⟨b, begins, rfl⟩ := exists_cons_of_length_eq_add_one hb
    obtain ⟨e, ends, rfl⟩ := exists_cons_of_length_eq_add_one he
    rw [paddedShape, length_cons, length_cons, ih (by simpa using hb) (by simpa using he)]

theorem read_mem_of_grid (h : grid attrs kernel sizes = some g) {os js : List Nat} (hos : os ∈ indices g.outSizes)
    (hjs : js ∈ indices kernel) {q : List Nat} (hq : (cells g.axes sizes os js).read = some q) : q ∈ indices sizes := by
  obtain ⟨hsizes, haxes, hout⟩ := grid_lengths h
  have hlos := length_of_mem_indices hos
  have hljs := length_of_mem_indices hjs
  exact read_mem (by rw [haxes, hsizes]) (by rw [hlos, hout, hsizes]) (by rw [hljs, hsizes]) hq

variable {pads : List Int}

theorem sameTaps_of_notset (hmode : attrs.autoPad.getD .notset = .notset) (hceil : attrs.ceilMode = false)
    (hpads : attrs.pads = some pads) (hgrid : grid attrs kernel sizes = some g) :
    pads.length = 2 * kernel.length ∧
      SameTaps attrs { attrs with pads := some (List.replicate pads.length 0) } (pads.take kernel.length)
        (pads.drop kernel.length) kernel sizes := by
  have hlen := (grid_lengths hgrid).1
  have hsave := hgrid
  unfold grid at hgrid
  simp only [if_pos hlen, hmode, hpads, getD_some] at hgrid
  split at hgrid
  · next hnonneg =>
    obtain ⟨axes, haxes, rfl⟩ := map_eq_some_iff.mp hgrid
    obtain ⟨haxesLen, hbegins, hends, axes₀, hzero, hadd⟩ := explicitAxes_spec haxes
    have htotal : pads.length = 2 * kernel.length := by
      rw [length_take] at hbegins
      rw [List.length_drop] at hends
      omega
    have hb0 : ∀ b ∈ pads.take kernel.length, 0 ≤ b := fun b hb => hnonneg b (mem_of_mem_take hb)
    have he0 : ∀ e ∈ pads.drop kernel.length, 0 ≤ e := fun e he => hnonneg e (mem_of_mem_drop he)
    have hbegins' : (pads.take kernel.length).length = sizes.length := hbegins.trans hlen.symm
    have hends' : (pads.drop kernel.length).length = sizes.length := hends.trans hlen.symm
    have hzeros : ∀ z ∈ List.replicate kernel.length (0 : Int), 0 ≤ z := by
      intro z hz
      rw [eq_of_mem_replicate hz]
    have hgrid' : grid { attrs with pads := some (List.replicate pads.length 0) } kernel
        (paddedShape (pads.take kernel.length) (pads.drop kernel.length) sizes) = _ :=
      grid_explicit hmode ((paddedShape_length hbegins' hends').trans hlen) length_replicate
        (show (some (List.replicate pads.length (0 : Int))).getD _ = _ by
          rw [getD_some, htotal, Nat.two_mul, replicate_add]) hzeros hzeros
    rw [show explicitAxes kernel _ _ _ _ = some axes₀ from hzero, map_some] at hgrid'
    have haxes₀ : axes₀.length = sizes.length := (explicitAxes_spec hzero).1.trans hlen.symm
    refine ⟨htotal, hbegins', hends', _, _, hsave, hgrid', ?_, ?_⟩
    · show List.zipWith (Axis.outSize attrs.ceilMode) _ _ = List.zipWith (Axis.outSize attrs.ceilMode) _ _
      rw [hceil, ← hadd, outSizes_add haxes₀ hbegins' hends' hb0 he0]
    · intro os hos js hjs
      have hlos := (length_of_mem_indices hos).trans (grid_lengths hsave).2.2
      have hljs := length_of_mem_indices hjs
      show (cells axes₀ _ os js).read.bind _ = (cells axes sizes os js).read
      rw [← hadd, reads_add haxes₀ hbegins' hends' (hlos.trans hlen.symm) (hljs.trans hlen.symm) hb0 he0]
  · cases hgrid

variable {α : Type} [Inhabited α] [Semiring α] {group batch : Nat} {x w : NDArray α}

theorem conv_eq (bias : Option (NDArray α)) (hx : Operands group batch sizes kernel x w)
    (hgrid : grid attrs kernel sizes = some g) :
    conv attrs group x w bias =
      some (convWith group kernel g.outSizes (fun os js => (cells g.axes sizes os js).read) x w bias) := by
  have hxs : x.shape.drop 2 = sizes := by
    rw [hx.x_shape]
    rfl
  have hws : w.shape.drop 2 = kernel := by
    rw [hx.w_shape]
    rfl
  have hhead : x.shape.headD 0 = batch := by
    rw [hx.x_shape]
    rfl
  rw [conv, hxs, hws, hhead, if_pos hx, hgrid, map_some]

theorem conv_pad_eq (bias : Option (NDArray α)) (hx : Operands group batch sizes kernel x w)
    (hb : begins.length = sizes.length) (he : ends.length = sizes.length) :
    ((pad (0 :: 0 :: begins) (0 :: 0 :: ends) 0 x).bind fun y => conv attrs group y w bias) =
      (grid attrs kernel (paddedShape begins ends sizes)).map fun g' =>
        convWith group kernel g'.outSizes (fun os js =>
          (cells g'.axes (paddedShape begins ends sizes) os js).read.bind (unpad begins sizes)) x w bias := by
  obtain ⟨y, hy, hshape, hread⟩ := pad_spatial hx.x_shape hb he 0
  have hy' : Operands group batch (paddedShape begins ends sizes) kernel y w := ⟨hshape, hx.w_shape⟩
  rw [hy, bind_some]
  cases hg : grid attrs kernel (paddedShape begins ends sizes) with
  | none =>
    have hys : y.shape.drop 2 = paddedShape begins ends sizes := by
      rw [hshape]
      rfl
    have hws : w.shape.drop 2 = kernel := by
      rw [hx.w_shape]
      rfl
    rw [conv, hys, hws, hg]
    split <;> rfl
  | some g' =>
    rw [conv_eq bias hy' hg, map_some]
    congr 1
    exact convWith_pad bias hx hshape hread fun os hos js hjs q hq => read_mem_of_grid hg hos hjs hq

theorem conv_pad_iff [Nontrivial α] (hgroup : 0 < group) (hgrid : grid attrs kernel sizes = some g)
    (hb : begins.length = sizes.length) (he : ends.length = sizes.length) :
    (∀ (batch : Nat) (x w : NDArray α) (bias : Option (NDArray α)) (z : NDArray α),
      Operands group batch sizes kernel x w → conv attrs group x w bias = some z →
        ((pad (0 :: 0 :: begins) (0 :: 0 :: ends) 0 x).bind fun y => conv attrs' group y w bias) = some z) ↔
      SameTaps attrs attrs' begins ends kernel sizes := by
  constructor
  · intro h
    have hunit : Operands group 1 sizes kernel (_ : NDArray α) _ := operands_unit hgroup [] []
    have hfirst := h 1 _ _ none _ hunit (conv_eq none hunit hgrid)
    rw [conv_pad_eq none hunit hb he] at hfirst
    obtain ⟨g', hg', -⟩ := map_eq_some_iff.mp hfirst
    have hreads : ∀ os ∈ indices g'.outSizes, ∀ js ∈ indices kernel, ∀ q,
        (cells g'.axes (paddedShape begins ends sizes) os js).read.bind (unpad begins sizes) = some q → q ∈ indices sizes := by
      intro os hos js hjs q hq
      obtain ⟨p, hp, hq⟩ := bind_eq_some_iff.mp hq
      have hpmem := read_mem_of_grid hg' hos hjs hp
      exact unpad_mem hb ((length_of_mem_indices hpmem).trans (paddedShape_length hb he)) hq
    have hsame : ∀ x w : NDArray α, Operands group 1 sizes kernel x w →
        convWith group kernel g'.outSizes (fun os js =>
            (cells g'.axes (paddedShape begins ends sizes) os js).read.bind (unpad begins sizes)) x w none =
          convWith group kernel g.outSizes (fun os js => (cells g.axes sizes os js).read) x w none := by
      intro x w hx
      have heq := h 1 x w none _ hx (conv_eq none hx hgrid)
      rw [conv_pad_eq none hx hb he, hg'] at heq
      exact Option.some.inj heq
    have hout : g'.outSizes = g.outSizes := outSizes_of_convWith hgroup hsame
    have hreads' : ∀ os ∈ indices g'.outSizes, ∀ js ∈ indices kernel, ∀ q,
        (cells g.axes sizes os js).read = some q → q ∈ indices sizes := by
      intro os hos js hjs q hq
      exact read_mem_of_grid hgrid (hout ▸ hos) hjs hq
    have htaps := (convWith_inj hgroup hreads hreads' hsame).2
    exact ⟨hb, he, g, g', hgrid, hg', hout, fun os hos js hjs => htaps os (hout ▸ hos) js hjs⟩
  · rintro ⟨-, -, g₀, g', hg₀, hg', hout, htaps⟩ batch x w bias z hx hz
    rw [hgrid] at hg₀
    obtain rfl := Option.some.inj hg₀
    rw [conv_eq bias hx hgrid] at hz
    rw [conv_pad_eq bias hx hb he, hg', map_some, ← hz]
    congr 1
    apply convWith_congr bias hout
    intro os hos js hjs
    exact htaps os (hout ▸ hos) js hjs

/-- A hoisted Pad is right when the pads are the ones that the convolution uses, and otherwise only when its taps
happen to agree. -/
theorem explicitConvPadding_iff [Nontrivial α] {kind : Kind} {h : Hoisted}
    (hfire : explicitConvPadding kind attrs = some h) (hpads : attrs.pads = some pads)
    (hceil : attrs.ceilMode = false) (hgroup : 0 < group) (hgrid : grid attrs kernel sizes = some g) :
    HoistCorrect α attrs h group kernel sizes ↔ attrs.autoPad.getD .notset = .notset ∨
      SameTaps attrs { attrs with pads := some (List.replicate pads.length 0) } (pads.take (pads.length / 2))
        (pads.drop (pads.length / 2)) kernel sizes := by
  have hlen := (grid_lengths hgrid).1
  unfold explicitConvPadding at hfire
  rw [hpads] at hfire
  dsimp only at hfire
  split at hfire
  · next hguard =>
    obtain ⟨-, -, heven, -⟩ := hguard
    obtain rfl := Option.some.inj hfire
    have hhalf : ([0, 0] ++ pads.take (pads.length / 2) ++ [0, 0] ++ pads.drop (pads.length / 2)).length / 2 =
        (0 :: 0 :: pads.take (pads.length / 2)).length := by
      simp only [length_append, length_cons, length_nil, length_take, List.length_drop]
      omega
    have hrun : ∀ (x w : NDArray α) bias, Hoisted.run ⟨[0, 0] ++ pads.take (pads.length / 2) ++ [0, 0] ++
        pads.drop (pads.length / 2), { attrs with pads := some (List.replicate pads.length 0) }⟩ group x w bias =
          (pad (0 :: 0 :: pads.take (pads.length / 2)) (0 :: 0 :: pads.drop (pads.length / 2)) 0 x).bind fun y =>
            conv { attrs with pads := some (List.replicate pads.length 0) } group y w bias := by
      intro x w bias
      rw [Hoisted.run, Hoisted.begins, Hoisted.ends, hhalf]
      simp
    unfold HoistCorrect
    simp only [hrun]
    by_cases hnd : pads.length / 2 = kernel.length
    · have hb : (pads.take (pads.length / 2)).length = sizes.length := by
        rw [length_take, hlen, ← hnd]
        omega
      have he : (pads.drop (pads.length / 2)).length = sizes.length := by
        rw [List.length_drop, hlen, ← hnd]
        omega
      rw [conv_pad_iff hgroup hgrid hb he]
      constructor
      · exact Or.inr
      · rintro (hmode | htaps)
        · rw [hnd]
          exact (sameTaps_of_notset hmode hceil hpads hgrid).2
        · exact htaps
    · constructor
      · intro hcorrect
        have hops : Operands group 1 sizes kernel (unit (1 :: group :: sizes) [] : NDArray α) (unit (group :: 1 :: kernel) []) :=
          operands_unit hgroup [] []
        have hrank := hcorrect 1 _ _ none _ hops (conv_eq none hops hgrid)
        obtain ⟨y, hy, -⟩ := bind_eq_some_iff.mp hrank
        unfold pad at hy
        split at hy
        · next hlens =>
          have h₁ : (0 :: 0 :: pads.take (pads.length / 2)).length = (1 :: group :: sizes).length := hlens.1
          rw [length_cons, length_cons, length_take, length_cons, length_cons] at h₁
          omega
        · cases hy
      · rintro (hmode | htaps)
        · have := (sameTaps_of_notset hmode hceil hpads hgrid).1
          omega
        · have := htaps.begins_length
          rw [length_take] at this
          omega
  · cases hfire

end Onnxsim.Passes.Paddings
