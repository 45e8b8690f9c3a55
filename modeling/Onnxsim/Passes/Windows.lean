import Onnxsim.Passes.Gathers

namespace Onnxsim.Passes.Windows

open List Option Overflow.Arrays Gathers
open Reduce

/-- The windows along one axis. -/
structure Axis where
  kernel : Nat
  stride : Nat
  dilation : Nat
  padBegin : Int
  padEnd : Int
deriving DecidableEq

def Axis.extent (a : Axis) : Int := ((a.kernel : Int) - 1) * a.dilation + 1

/-- What a place of a window falls on; `outside` is past the padding, too. -/
inductive Cell (β : Type) where
  | element (i : β)
  | padding
  | outside
deriving DecidableEq

def Cell.read {β : Type} : Cell β → Option β
  | .element i => some i
  | _ => none

def Cell.cons : Cell Nat → Cell (List Nat) → Cell (List Nat)
  | .element i, .element is => .element (i :: is)
  | .outside, _ => .outside
  | _, .outside => .outside
  | _, _ => .padding

def Axis.position (a : Axis) (o j : Nat) : Int := (o : Int) * a.stride + (j : Int) * a.dilation - a.padBegin

def Axis.cell (a : Axis) (n o j : Nat) : Cell Nat :=
  if 0 ≤ a.position o j ∧ a.position o j < n then .element (a.position o j).toNat
  else if -a.padBegin ≤ a.position o j ∧ a.position o j < n + a.padEnd then .padding
  else .outside

def cells : List Axis → List Nat → List Nat → List Nat → Cell (List Nat)
  | a :: axes, n :: sizes, o :: os, j :: js => (a.cell n o j).cons (cells axes sizes os js)
  | _, _, _, _ => .element []

def Axis.room (a : Axis) (n : Nat) : Int := n + a.padBegin + a.padEnd - a.extent

/-- When the size is rounded up, the last window reaches past the end, but it does not start there. -/
def Axis.outSize (ceil : Bool) (a : Axis) (n : Nat) : Nat :=
  if ceil then
    if n + a.padBegin ≤ -(-a.room n / a.stride) * a.stride then (-(-a.room n / a.stride)).toNat
    else (-(-a.room n / a.stride) + 1).toNat
  else (a.room n / a.stride + 1).toNat

inductive AutoPad where
  | notset
  | sameUpper
  | sameLower
  | valid
deriving DecidableEq

structure Attributes where
  autoPad : Option AutoPad
  kernelShape : Option (List Nat)
  pads : Option (List Int)
  strides : Option (List Nat)
  dilations : Option (List Nat)
  ceilMode : Bool
deriving DecidableEq

/-- The padding that an output of size `n / stride`, rounded up, needs. -/
def samePad (n kernel stride dilation : Nat) : Nat :=
  if n % stride = 0 then (kernel - 1) * dilation + 1 - stride else (kernel - 1) * dilation + 1 - n % stride

def autoAxis (mode : AutoPad) (n kernel stride dilation : Nat) : Axis :=
  let total := samePad n kernel stride dilation
  match mode with
  | .sameUpper => ⟨kernel, stride, dilation, (total / 2 : Nat), (total - total / 2 : Nat)⟩
  | .sameLower => ⟨kernel, stride, dilation, (total - total / 2 : Nat), (total / 2 : Nat)⟩
  | _ => ⟨kernel, stride, dilation, 0, 0⟩

/-- The output size that is defined for a mode, whether or not sizes are rounded up. -/
def autoSize (mode : AutoPad) (n : Nat) (a : Axis) : Nat :=
  match mode with
  | .valid => (-(-((n : Int) - a.extent + 1) / a.stride)).toNat
  | _ => (n + a.stride - 1) / a.stride

def autoAxes (mode : AutoPad) : List Nat → List Nat → List Nat → List Nat → Option (List Axis)
  | n :: sizes, k :: kernel, s :: strides, d :: dilations =>
    (autoAxes mode sizes kernel strides dilations).map (autoAxis mode n k s d :: ·)
  | [], [], [], [] => some []
  | _, _, _, _ => none

def explicitAxes : List Nat → List Nat → List Nat → List Int → List Int → Option (List Axis)
  | k :: kernel, s :: strides, d :: dilations, b :: begins, e :: ends =>
    (explicitAxes kernel strides dilations begins ends).map (⟨k, s, d, b, e⟩ :: ·)
  | [], [], [], [], [] => some []
  | _, _, _, _, _ => none

/-- The windows of a node on an input, and how many there are along each axis. -/
structure Grid where
  axes : List Axis
  outSizes : List Nat
deriving DecidableEq

/-- The attributes have to give each spatial axis its own values, and explicit pads are not negative. -/
def grid (attrs : Attributes) (kernel sizes : List Nat) : Option Grid :=
  let nd := kernel.length
  let strides := attrs.strides.getD (List.replicate nd 1)
  let dilations := attrs.dilations.getD (List.replicate nd 1)
  if sizes.length = nd then
    match attrs.autoPad.getD .notset with
    | .notset =>
      let pads := attrs.pads.getD (List.replicate (2 * nd) 0)
      if ∀ p ∈ pads, 0 ≤ p then
        (explicitAxes kernel strides dilations (pads.take nd) (pads.drop nd)).map fun axes =>
          ⟨axes, List.zipWith (Axis.outSize attrs.ceilMode) axes sizes⟩
      else none
    | mode =>
      (autoAxes mode sizes kernel strides dilations).map fun axes => ⟨axes, List.zipWith (autoSize mode) sizes axes⟩
  else none

section

variable {α : Type} [Inhabited α] [Semiring α]

def readOr (x : NDArray α) (n c : Nat) : Option (List Nat) → α
  | none => 0
  | some p => readAt x (n :: c :: p)

def biasAt (bias : Option (NDArray α)) (co : Nat) : α :=
  match bias with
  | none => 0
  | some b => readAt b [co]

/-- A grouped convolution; `reads` names the element that a tap of a window is multiplied with, if there is one. -/
def convWith (group : Nat) (kernel outSizes : List Nat) (reads : List Nat → List Nat → Option (List Nat))
    (x w : NDArray α) (bias : Option (NDArray α)) : NDArray α :=
  NDArray.ofFn (x.shape.headD 0 :: w.shape.headD 0 :: outSizes) fun idx =>
    biasAt bias (idx.getD 1 0) + ((List.range (w.shape.getD 1 0)).map fun ci => ((indices kernel).map fun js =>
      readAt w (idx.getD 1 0 :: ci :: js) *
        readOr x (idx.headD 0) (idx.getD 1 0 / (w.shape.headD 0 / group) * w.shape.getD 1 0 + ci)
          (reads (idx.drop 2) js)).sum).sum

/-- The operands of a convolution. -/
structure Operands (group batch : Nat) (sizes kernel : List Nat) (x w : NDArray α) : Prop where
  x_shape : x.shape = batch :: group * w.shape.getD 1 0 :: sizes
  w_shape : w.shape = group * (w.shape.headD 0 / group) :: w.shape.getD 1 0 :: kernel

instance (group batch : Nat) (sizes kernel : List Nat) (x w : NDArray α) :
    Decidable (Operands group batch sizes kernel x w) :=
  decidable_of_iff
    (x.shape = batch :: group * w.shape.getD 1 0 :: sizes ∧
      w.shape = group * (w.shape.headD 0 / group) :: w.shape.getD 1 0 :: kernel)
    ⟨fun h => ⟨h.1, h.2⟩, fun h => ⟨h.1, h.2⟩⟩

def conv (attrs : Attributes) (group : Nat) (x w : NDArray α) (bias : Option (NDArray α)) : Option (NDArray α) :=
  if Operands group (x.shape.headD 0) (x.shape.drop 2) (w.shape.drop 2) x w then
    (grid attrs (w.shape.drop 2) (x.shape.drop 2)).map fun g =>
      convWith group (w.shape.drop 2) g.outSizes (fun os js => (cells g.axes (x.shape.drop 2) os js).read) x w bias
  else none

/-- Where an element of a padded array comes from, if not from the padding. -/
def unpad : List Int → List Nat → List Nat → Option (List Nat)
  | b :: begins, n :: shape, q :: qs =>
    if 0 ≤ (q : Int) - b ∧ (q : Int) - b < n then (unpad begins shape qs).map (((q : Int) - b).toNat :: ·) else none
  | _, _, _ => some []

def paddedShape : List Int → List Int → List Nat → List Nat
  | b :: begins, e :: ends, n :: shape => ((n : Int) + b + e).toNat :: paddedShape begins ends shape
  | _, _, _ => []

def pad (begins ends : List Int) (v : α) (x : NDArray α) : Option (NDArray α) :=
  if begins.length = x.shape.length ∧ ends.length = x.shape.length then
    some (NDArray.ofFn (paddedShape begins ends x.shape) fun q => ((unpad begins x.shape q).map (readAt x)).getD v)
  else none

end

variable {p q os js : List Nat} {β : Type} {n : Nat} {axes : List Axis}

section

variable {α : Type} [Inhabited α] [Semiring α] {group : Nat} {kernel outSizes outSizes' sizes : List Nat}
  {reads reads' : List Nat → List Nat → Option (List Nat)}

theorem convWith_congr {x w : NDArray α} (bias : Option (NDArray α)) (hout : outSizes = outSizes')
    (h : ∀ os ∈ indices outSizes, ∀ js ∈ indices kernel, reads os js = reads' os js) :
    convWith group kernel outSizes reads x w bias = convWith group kernel outSizes' reads' x w bias := by
  subst hout
  apply Axes.ofFn_congr rfl
  intro idx hidx
  obtain ⟨n, rest, rfl, -, hrest⟩ := exists_of_mem_indices_cons hidx
  obtain ⟨co, os, rfl, -, hos⟩ := exists_of_mem_indices_cons hrest
  have hterms : ∀ (f : List Nat → α) (g : Option (List Nat) → α),
      ((indices kernel).map fun js => f js * g (reads os js)) = (indices kernel).map fun js => f js * g (reads' os js) := by
    intro f g
    apply map_congr_left
    intro js hjs
    rw [h os hos js hjs]
  simp only [headD_cons, getD_cons_succ, getD_cons_zero, drop_succ_cons, drop_zero, hterms]

def unit (s p : List Nat) : NDArray α := NDArray.ofFn s fun q => if q = p then 1 else 0

theorem readAt_unit {s : List Nat} (h : q ∈ indices s) : readAt (unit s p : NDArray α) q = if q = p then 1 else 0 :=
  readAt_ofFn _ h

theorem sum_indicator {M : Type} [AddCommMonoid M] [DecidableEq β] {l : List β} (hnodup : l.Nodup) {b : β}
    (hb : b ∈ l) (f : β → M) (hf : ∀ b', b' ≠ b → f b' = 0) : (l.map f).sum = f b := by
  rw [sum_map_eq_nsmul_single b f fun b' hne _ => hf b' hne, count_eq_one_of_mem hnodup hb, one_nsmul]

/-- A kernel that is one at a tap, on an input that is one in one place, tells whether the tap reads it. -/
theorem convWith_unit (hgroup : 0 < group) (hos : os ∈ indices outSizes) (hjs : js ∈ indices kernel)
    (hreads : ∀ q, reads os js = some q → q ∈ indices sizes) :
    readAt (convWith group kernel outSizes reads (unit (1 :: group :: sizes) (0 :: 0 :: p))
      (unit (group :: 1 :: kernel) (0 :: 0 :: js)) none : NDArray α) (0 :: 0 :: os) =
        if reads os js = some p then 1 else 0 := by
  have hmem : 0 :: 0 :: os ∈ indices (1 :: group :: outSizes) :=
    mem_indices_cons.mpr ⟨Nat.one_pos, mem_indices_cons.mpr ⟨hgroup, hos⟩⟩
  refine (readAt_ofFn _ hmem).trans ?_
  have hw : (unit (group :: 1 :: kernel) (0 :: 0 :: js) : NDArray α).shape = group :: 1 :: kernel := rfl
  rw [hw]
  simp only [headD_cons, getD_cons_succ, getD_cons_zero, drop_succ_cons, drop_zero, biasAt,
    zero_add, Nat.zero_div, Nat.zero_mul, range_one, map_singleton, sum_singleton]
  have htap : ∀ js' ∈ indices kernel, readAt (unit (group :: 1 :: kernel) (0 :: 0 :: js) : NDArray α) (0 :: 0 :: js') =
      if js' = js then 1 else 0 := by
    intro js' hjs'
    rw [readAt_unit (mem_indices_cons.mpr ⟨hgroup, mem_indices_cons.mpr ⟨Nat.one_pos, hjs'⟩⟩)]
    simp
  have hterms : ((indices kernel).map fun js' => readAt (unit (group :: 1 :: kernel) (0 :: 0 :: js) : NDArray α) (0 :: 0 :: js') *
      readOr (unit (1 :: group :: sizes) (0 :: 0 :: p)) 0 0 (reads os js')) =
        (indices kernel).map fun js' => if js' = js then readOr (unit (1 :: group :: sizes) (0 :: 0 :: p)) 0 0 (reads os js') else 0 := by
    apply map_congr_left
    intro js' hjs'
    rw [htap js' hjs']
    split <;> simp
  rw [hterms, sum_indicator (nodup_indices kernel) hjs _ (fun js' hne => if_neg hne), if_pos rfl]
  cases hr : reads os js with
  | none => simp [readOr]
  | some q =>
    have hq := hreads q hr
    rw [readOr, readAt_unit (mem_indices_cons.mpr ⟨Nat.one_pos, mem_indices_cons.mpr ⟨hgroup, hq⟩⟩)]
    simp

omit [Inhabited α] in
theorem operands_unit (hgroup : 0 < group) (p js : List Nat) :
    Operands group 1 sizes kernel (unit (1 :: group :: sizes) p : NDArray α) (unit (group :: 1 :: kernel) js) := by
  refine ⟨?_, ?_⟩
  · show 1 :: group :: sizes = 1 :: group * 1 :: sizes
    rw [Nat.mul_one]
  · show group :: 1 :: kernel = group * (group / group) :: 1 :: kernel
    rw [Nat.div_self hgroup, Nat.mul_one]

theorem outSizes_of_convWith (hgroup : 0 < group) (h : ∀ x w : NDArray α, Operands group 1 sizes kernel x w →
    convWith group kernel outSizes reads x w none = convWith group kernel outSizes' reads' x w none) :
    outSizes = outSizes' := by
  have hshape := congrArg NDArray.shape (h _ _ (operands_unit hgroup [] []))
  have hlists : 1 :: group :: outSizes = 1 :: group :: outSizes' := hshape
  simpa using hlists

theorem convWith_inj [Nontrivial α] (hgroup : 0 < group)
    (hreads : ∀ os ∈ indices outSizes, ∀ js ∈ indices kernel, ∀ q, reads os js = some q → q ∈ indices sizes)
    (hreads' : ∀ os ∈ indices outSizes, ∀ js ∈ indices kernel, ∀ q, reads' os js = some q → q ∈ indices sizes)
    (h : ∀ x w : NDArray α, Operands group 1 sizes kernel x w →
      convWith group kernel outSizes reads x w none = convWith group kernel outSizes' reads' x w none) :
    outSizes = outSizes' ∧ ∀ os ∈ indices outSizes, ∀ js ∈ indices kernel, reads os js = reads' os js := by
  have hout := outSizes_of_convWith hgroup h
  subst hout
  refine ⟨rfl, ?_⟩
  intro os hos js hjs
  have hsame : ∀ p ∈ indices sizes, reads os js = some p ↔ reads' os js = some p := by
    intro p hp
    have heq := congrArg (fun a => readAt a (0 :: 0 :: os)) (h _ _ (operands_unit hgroup (0 :: 0 :: p) (0 :: 0 :: js)))
    rw [convWith_unit hgroup hos hjs (hreads os hos js hjs), convWith_unit hgroup hos hjs (hreads' os hos js hjs)] at heq
    by_cases h₁ : reads os js = some p
    · by_cases h₂ : reads' os js = some p
      · simp [h₁, h₂]
      · simp [h₁, h₂] at heq
    · by_cases h₂ : reads' os js = some p
      · simp [h₁, h₂] at heq
      · simp [h₁, h₂]
  cases hr : reads os js with
  | some p => exact ((hsame p (hreads os hos js hjs p hr)).mp hr).symm
  | none =>
    cases hr' : reads' os js with
    | none => rfl
    | some p =>
      have := (hsame p (hreads' os hos js hjs p hr')).mpr hr'
      rw [hr] at this
      cases this

end

theorem Axis.cell_element {a : Axis} {o j i : Nat} (h : a.cell n o j = .element i) : i < n := by
  unfold Axis.cell at h
  split at h
  · cases h
    omega
  · split at h <;> cases h

theorem Cell.cons_element {c : Cell Nat} {cs : Cell (List Nat)} (h : c.cons cs = .element p) :
    ∃ i is, c = .element i ∧ cs = .element is ∧ p = i :: is := by
  cases c <;> cases cs <;> cases h
  exact ⟨_, _, rfl, rfl, rfl⟩

theorem Cell.read_eq_some {c : Cell β} {p : β} : c.read = some p ↔ c = .element p := by
  cases c <;> simp [Cell.read]

theorem Cell.read_cons (c : Cell Nat) (cs : Cell (List Nat)) :
    (c.cons cs).read = c.read.bind fun i => cs.read.map (i :: ·) := by
  cases c <;> cases cs <;> rfl

theorem read_mem {sizes : List Nat} (hlen : axes.length = sizes.length) (hos : os.length = sizes.length)
    (hjs : js.length = sizes.length) (h : (cells axes sizes os js).read = some p) :
    p ∈ indices sizes := by
  rw [Cell.read_eq_some] at h
  induction sizes generalizing axes os js p with
  | nil =>
    cases axes with
    | nil =>
      cases h
      exact mem_singleton.mpr rfl
    | cons a axes => cases hlen
  | cons n sizes ih =>
    cases axes with
    | nil => cases hlen
    | cons a axes =>
      cases os with
      | nil => cases hos
      | cons o os =>
        cases js with
        | nil => cases hjs
        | cons j js =>
          obtain ⟨i, is, hi, his, rfl⟩ := Cell.cons_element h
          exact mem_indices_cons.mpr ⟨Axis.cell_element hi,
            ih (by simpa using hlen) (by simpa using hos) (by simpa using hjs) his⟩

theorem unpad_mem {begins : List Int} {shape : List Nat} (hb : begins.length = shape.length)
    (hq : q.length = shape.length) (h : unpad begins shape q = some p) : p ∈ indices shape := by
  induction shape generalizing begins q p with
  | nil =>
    cases begins with
    | nil =>
      cases h
      exact mem_singleton.mpr rfl
    | cons b begins => cases hb
  | cons n shape ih =>
    cases begins with
    | nil => cases hb
    | cons b begins =>
      cases q with
      | nil => cases hq
      | cons i q =>
        rw [unpad] at h
        split at h
        · next hrange =>
          obtain ⟨p, hp, rfl⟩ := map_eq_some_iff.mp h
          exact mem_indices_cons.mpr ⟨by omega, ih (by simpa using hb) (by simpa using hq) hp⟩
        · cases h

section

variable {α : Type} [Inhabited α] [Semiring α] {group batch : Nat} {sizes kernel : List Nat} {begins ends : List Int}
  {x w : NDArray α}

theorem unpad_keep {c a b : Nat} (ha : a < n) (hb : b < c) (q : List Nat) :
    unpad (0 :: 0 :: begins) (n :: c :: sizes) (a :: b :: q) = (unpad begins sizes q).map fun p => a :: b :: p := by
  rw [unpad, if_pos (by omega), unpad, if_pos (by omega), Option.map_map]
  simp [Function.comp_def]

omit [Semiring α] in
theorem pad_spatial {channels : Nat} (hx : x.shape = batch :: channels :: sizes) (hb : begins.length = sizes.length)
    (he : ends.length = sizes.length) (v : α) :
    ∃ y, pad (0 :: 0 :: begins) (0 :: 0 :: ends) v x = some y ∧
      y.shape = batch :: channels :: paddedShape begins ends sizes ∧
      ∀ a < batch, ∀ b < channels, ∀ q ∈ indices (paddedShape begins ends sizes),
        readAt y (a :: b :: q) = ((unpad begins sizes q).map fun p => readAt x (a :: b :: p)).getD v := by
  have hlen : (0 :: 0 :: begins).length = x.shape.length ∧ (0 :: 0 :: ends).length = x.shape.length := by
    rw [hx]
    simp [hb, he]
  have hshape : paddedShape (0 :: 0 :: begins) (0 :: 0 :: ends) x.shape =
      batch :: channels :: paddedShape begins ends sizes := by
    rw [hx, paddedShape, paddedShape]
    simp only [Int.add_zero, Int.toNat_natCast]
  refine ⟨_, by rw [pad, if_pos hlen], hshape, ?_⟩
  intro a ha b hb q hq
  have hmem : a :: b :: q ∈ indices (paddedShape (0 :: 0 :: begins) (0 :: 0 :: ends) x.shape) := by
    rw [hshape]
    exact mem_indices_cons.mpr ⟨ha, mem_indices_cons.mpr ⟨hb, hq⟩⟩
  refine (readAt_ofFn _ hmem).trans ?_
  rw [hx, unpad_keep ha hb, Option.map_map]
  rfl

theorem channel_lt {co ci m cin : Nat} (hco : co < group * m) (hci : ci < cin) :
    co / (group * m / group) * cin + ci < group * cin := by
  have hgroup : 0 < group := Nat.pos_of_ne_zero (by rintro rfl; simp at hco)
  rw [Nat.mul_div_cancel_left m hgroup]
  have hlt : co / m < group := by
    rw [Nat.mul_comm] at hco
    exact Nat.div_lt_of_lt_mul hco
  have hle : (co / m + 1) * cin ≤ group * cin := Nat.mul_le_mul_right cin hlt
  rw [Nat.succ_mul] at hle
  omega

theorem convWith_pad {outSizes : List Nat} {reads : List Nat → List Nat → Option (List Nat)} {y : NDArray α}
    (bias : Option (NDArray α)) (hx : Operands group batch sizes kernel x w)
    (hy : y.shape = batch :: group * w.shape.getD 1 0 :: paddedShape begins ends sizes)
    (hread : ∀ a < batch, ∀ b < group * w.shape.getD 1 0, ∀ q ∈ indices (paddedShape begins ends sizes),
      readAt y (a :: b :: q) = ((unpad begins sizes q).map fun p => readAt x (a :: b :: p)).getD 0)
    (hmem : ∀ os ∈ indices outSizes, ∀ js ∈ indices kernel, ∀ q, reads os js = some q →
      q ∈ indices (paddedShape begins ends sizes)) :
    convWith group kernel outSizes reads y w bias =
      convWith group kernel outSizes (fun os js => (reads os js).bind (unpad begins sizes)) x w bias := by
  have hheads : y.shape.headD 0 = x.shape.headD 0 := by
    rw [hy, hx.x_shape]
    rfl
  apply Axes.ofFn_congr (by rw [hheads])
  intro idx hidx
  obtain ⟨n, rest, rfl, hn, hrest⟩ := exists_of_mem_indices_cons hidx
  obtain ⟨co, os, rfl, hco, hos⟩ := exists_of_mem_indices_cons hrest
  simp only [headD_cons, getD_cons_succ, getD_cons_zero, drop_succ_cons, drop_zero]
  congr 2
  apply map_congr_left
  intro ci hci
  congr 1
  apply map_congr_left
  intro js hjs
  congr 1
  rw [hy, headD_cons] at hn
  rw [hx.w_shape, headD_cons] at hco
  have hc : co / (w.shape.headD 0 / group) * w.shape.getD 1 0 + ci < group * w.shape.getD 1 0 := by
    have h := channel_lt hco (mem_range.mp hci)
    have hhead : group * (w.shape.headD 0 / group) = w.shape.headD 0 := by
      have := congrArg (fun l : List Nat => l.headD 0) hx.w_shape
      simpa using this.symm
    rwa [hhead] at h
  cases hr : reads os js with
  | none => rfl
  | some q =>
    rw [readOr, hread n hn _ hc q (hmem os hos js hjs q hr), bind_some]
    cases unpad begins sizes q <;> rfl

end

/-- Further padding in front of the input of a window operator. -/
def Axis.add (a : Axis) (b e : Int) : Axis := ⟨a.kernel, a.stride, a.dilation, a.padBegin + b, a.padEnd + e⟩

def addPads : List Axis → List Int → List Int → List Axis
  | a :: axes, b :: begins, e :: ends => a.add b e :: addPads axes begins ends
  | _, _, _ => []

theorem Axis.outSize_add (a : Axis) {b e : Int} (hb : 0 ≤ b) (he : 0 ≤ e) (n : Nat) :
    (a.add b e).outSize false n = a.outSize false ((n : Int) + b + e).toNat := by
  have hroom : (a.add b e).room n = a.room ((n : Int) + b + e).toNat := by
    simp only [Axis.room, Axis.add, Axis.extent]
    omega
  show ((a.add b e).room n / a.stride + 1).toNat = (a.room _ / a.stride + 1).toNat
  rw [hroom]

theorem read_absent (p : Prop) [Decidable p] : (if p then (Cell.padding : Cell Nat) else .outside).read = none := by
  split <;> rfl

theorem Axis.cell_add (a : Axis) {b e : Int} (hb : 0 ≤ b) (he : 0 ≤ e) (n o j : Nat) :
    ((a.add b e).cell n o j).read = (a.cell ((n : Int) + b + e).toNat o j).read.bind fun q =>
      if 0 ≤ (q : Int) - b ∧ (q : Int) - b < n then some ((q : Int) - b).toNat else none := by
  have hpos : (a.add b e).position o j = a.position o j - b := by
    simp only [Axis.position, Axis.add]
    omega
  unfold Axis.cell
  rw [hpos]
  by_cases hy : 0 ≤ a.position o j ∧ a.position o j < ((n : Int) + b + e).toNat
  · rw [if_pos hy]
    show _ = Option.bind (some _) _
    rw [bind_some, Int.toNat_of_nonneg hy.1]
    by_cases hx : 0 ≤ a.position o j - b ∧ a.position o j - b < n
    · rw [if_pos hx, if_pos hx]
      rfl
    · rw [if_neg hx, if_neg hx, read_absent]
  · rw [if_neg hy, if_neg (by omega), read_absent, read_absent]
    rfl

theorem reads_add {begins ends : List Int} {sizes : List Nat} (ha : axes.length = sizes.length)
    (hb : begins.length = sizes.length) (he : ends.length = sizes.length) (hos : os.length = sizes.length)
    (hjs : js.length = sizes.length) (hb0 : ∀ b ∈ begins, 0 ≤ b) (he0 : ∀ e ∈ ends, 0 ≤ e) :
    (cells (addPads axes begins ends) sizes os js).read =
      (cells axes (paddedShape begins ends sizes) os js).read.bind (unpad begins sizes) := by
  induction sizes generalizing axes begins ends os js with
  | nil =>
    cases eq_nil_of_length_eq_zero ha
    cases eq_nil_of_length_eq_zero hb
    rfl
  | cons n sizes ih =>
    obtain ⟨a, axes, rfl⟩ := exists_cons_of_length_eq_add_one ha
    obtain ⟨b, begins, rfl⟩ := exists_cons_of_length_eq_add_one hb
    obtain ⟨e, ends, rfl⟩ := exists_cons_of_length_eq_add_one he
    obtain ⟨o, os, rfl⟩ := exists_cons_of_length_eq_add_one hos
    obtain ⟨j, js, rfl⟩ := exists_cons_of_length_eq_add_one hjs
    rw [forall_mem_cons] at hb0 he0
    have hrest := ih (by simpa using ha) (by simpa using hb) (by simpa using he) (by simpa using hos)
      (by simpa using hjs) hb0.2 he0.2
    rw [addPads, paddedShape, cells, cells, Cell.read_cons, Cell.read_cons, a.cell_add hb0.1 he0.1, hrest]
    cases (a.cell ((n : Int) + b + e).toNat o j).read with
    | none => rfl
    | some q =>
      cases hcs : (cells axes (paddedShape begins ends sizes) os js).read with
      | none =>
        simp only [bind_some, bind_none, map_none]
        split <;> rfl
      | some qs =>
        simp only [bind_some, map_some, unpad]
        split <;> rfl

theorem outSizes_add {begins ends : List Int} {sizes : List Nat} (ha : axes.length = sizes.length)
    (hb : begins.length = sizes.length) (he : ends.length = sizes.length) (hb0 : ∀ b ∈ begins, 0 ≤ b)
    (he0 : ∀ e ∈ ends, 0 ≤ e) :
    List.zipWith (Axis.outSize false) (addPads axes begins ends) sizes =
      List.zipWith (Axis.outSize false) axes (paddedShape begins ends sizes) := by
  induction sizes generalizing axes begins ends with
  | nil => cases begins <;> simp [paddedShape]
  | cons n sizes ih =>
    obtain ⟨a, axes, rfl⟩ := exists_cons_of_length_eq_add_one ha
    obtain ⟨b, begins, rfl⟩ := exists_cons_of_length_eq_add_one hb
    obtain ⟨e, ends, rfl⟩ := exists_cons_of_length_eq_add_one he
    rw [forall_mem_cons] at hb0 he0
    rw [addPads, paddedShape, zipWith_cons_cons, zipWith_cons_cons, a.outSize_add hb0.1 he0.1,
      ih (by simpa using ha) (by simpa using hb) (by simpa using he) hb0.2 he0.2]

end Onnxsim.Passes.Windows
