import Onnxsim.Lib.Expressions
import Onnxsim.Overflow.Operators

namespace Onnxsim.Certify.Windows

open Lib.Expressions Overflow.Arrays

/-- The attributes that the encoder and the shrinking read, with their defaults. -/
structure Attrs (𝕜 : Type) where
  autoPad : String
  strides : List Nat
  dilations : List Nat
  pads : List Int
  group : Nat
  epsilon : 𝕜
  training : Bool
  extraOutputs : Bool

inductive OpType where
  | conv
  | batchNormalization
  | add
  | sub
  | mul
  | neg
  | identity
  | relu
  | clip
  | other (name : String)
deriving DecidableEq

inductive Def (𝕜 : Type) where
  | input (name : String)
  | const (value : NDArray 𝕜)
  | op (domain : String) (name : OpType) (attrs : Attrs 𝕜) (inputs : List (Option Nat)) (outIndex : Nat)

def presentInputs (inputs : List (Option Nat)) : List Nat := inputs.filterMap id

/-- The tensors of both models by their ids, with the shapes that are known. A kernel has a tap on both axes. -/
structure Space (𝕜 : Type) where
  defs : List (Def 𝕜)
  shape : Nat → Option (List Nat)
  isFloat : Nat → Bool
  kernels : ∀ (i x w : Nat) (domain : String) (attrs : Attrs 𝕜) (inputs : List (Option Nat)) (outIndex : Nat)
    (rest : List Nat) (weight : NDArray 𝕜), defs[i]? = some (.op domain .conv attrs inputs outIndex) →
    presentInputs inputs = x :: w :: rest → defs[w]? = some (.const weight) → ∀ k ∈ weight.shape.drop 2, 0 < k

variable {𝕜 : Type}

/-- One pixel of a leaf tensor. -/
structure Pixel where
  leaf : Nat
  batch : Nat
  channel : Nat
  row : Nat
  col : Nat
deriving DecidableEq

abbrev Term (𝕜 : Type) := Expr 𝕜 Pixel

/-- An encoded tensor of rank four. -/
structure Grid (𝕜 : Type) where
  batch : Nat
  channels : Nat
  rows : Nat
  cols : Nat
  at_ : Nat → Nat → Nat → Nat → Term 𝕜

def leafGrid (i : Nat) : List Nat → Except String (Grid 𝕜)
  | [n, c, h, w] => .ok ⟨n, c, h, w, fun b k y x => .var ⟨i, b, k, y, x⟩⟩
  | _ => .error "not a tensor of rank four"

def padded (shape : List Nat) : List Nat := List.replicate (4 - shape.length) 1 ++ shape

def constAt [Zero 𝕜] (value : NDArray 𝕜) (b c y x : Nat) : 𝕜 :=
  (value.get? ([b, c, y, x].drop (4 - value.shape.length))).getD 0

def constGrid [Zero 𝕜] (value : NDArray 𝕜) : Except String (Grid 𝕜) :=
  match padded value.shape with
  | [n, c, h, w] => .ok ⟨n, c, h, w, fun b k y x => .num (constAt value b k y x)⟩
  | _ => .error "not a tensor of rank four"

def bcastDim (m n : Nat) : Except String Nat :=
  if m = n ∨ n = 1 then .ok m else if m = 1 then .ok n else .error "operands could not be broadcast together"

def pick (n i : Nat) : Nat := if n = 1 then 0 else i

def Grid.read (g : Grid 𝕜) (b c y x : Nat) : Term 𝕜 :=
  g.at_ (pick g.batch b) (pick g.channels c) (pick g.rows y) (pick g.cols x)

def zipGrids (f : Term 𝕜 → Term 𝕜 → Term 𝕜) (g h : Grid 𝕜) : Except String (Grid 𝕜) := do
  let n ← bcastDim g.batch h.batch
  let c ← bcastDim g.channels h.channels
  let y ← bcastDim g.rows h.rows
  let x ← bcastDim g.cols h.cols
  .ok ⟨n, c, y, x, fun b k i j => f (g.read b k i j) (h.read b k i j)⟩

def mapGrid (f : Term 𝕜 → Term 𝕜) (g : Grid 𝕜) : Grid 𝕜 :=
  ⟨g.batch, g.channels, g.rows, g.cols, fun b k i j => f (g.at_ b k i j)⟩

variable [Field 𝕜]

def relu (e : Term 𝕜) : Term 𝕜 := .ifLt (.num 0) e e (.num 0)

def clip (lo hi : Option 𝕜) (e : Term 𝕜) : Term 𝕜 :=
  let low := match lo with
    | none => e
    | some v => .ifLt e (.num v) (.num v) e
  match hi with
  | none => low
  | some v => .ifLt (.num v) low (.num v) low

def convLen (len padBefore padAfter : Int) (kernel dilation stride : Nat) : Int :=
  (len + padBefore + padAfter - dilation * ((kernel : Int) - 1) - 1) / (stride : Int) + 1

/-- The geometry of a convolution along one axis. -/
structure ConvAxis where
  kernel : Nat
  stride : Nat
  dilation : Nat
  padBefore : Int
  padAfter : Int

def convAxis (attrs : Attrs 𝕜) (kernel : List Nat) (ax : Nat) : Except String ConvAxis :=
  match kernel[2 + ax]?, attrs.strides[ax]?, attrs.dilations[ax]?, attrs.pads[ax]?, attrs.pads[2 + ax]? with
  | some k, some s, some d, some before, some after =>
    if s = 0 then .error "ZeroDivisionError" else .ok ⟨k, s, d, before, after⟩
  | _, _, _, _, _ => .error "IndexError"

def ConvAxis.len (a : ConvAxis) (n : Int) : Int := convLen n a.padBefore a.padAfter a.kernel a.dilation a.stride

/-- The cell of the input, or the zero of the padding, that a tap reads. -/
def tap (g : Grid 𝕜) (b c : Nat) (y x : Int) : Term 𝕜 :=
  if 0 ≤ y ∧ y < g.rows ∧ 0 ≤ x ∧ x < g.cols then g.at_ b c y.toNat x.toNat else .num 0

/-- Where tap `k` of output position `p` lies. -/
def ConvAxis.place (a : ConvAxis) (p k : Nat) : Int := (p : Int) * a.stride + (k : Int) * a.dilation - a.padBefore

def convTerms (weight : NDArray 𝕜) (h w : ConvAxis) (g : Grid 𝕜) (cg mg b mo i j : Nat) : List (Term 𝕜) :=
  (List.range cg).flatMap fun cc => (List.range h.kernel).flatMap fun ki => (List.range w.kernel).map fun kj =>
    .mul (.num (constAt weight mo cc ki kj)) (tap g b (mo / mg * cg + cc) (h.place i ki) (w.place j kj))

def biasAt (bias : NDArray 𝕜) (mo : Nat) : 𝕜 := (bias.get? [mo]).getD 0

def withBias (bias : Option (NDArray 𝕜)) (mo : Nat) (e : Term 𝕜) : Term 𝕜 :=
  match bias with
  | none => e
  | some v => .add e (.num (biasAt v mo))

/-- `op_Conv`, over constant weights. -/
def convGrid (attrs : Attrs 𝕜) (weight : NDArray 𝕜) (bias : Option (NDArray 𝕜)) (g : Grid 𝕜) : Except String (Grid 𝕜) :=
  match weight.shape with
  | [m, cg, _, _] => do
    let h ← convAxis attrs weight.shape 0
    let w ← convAxis attrs weight.shape 1
    let mg := m / attrs.group
    if attrs.autoPad ≠ "NOTSET" then .error "Conv auto_pad"
    else if attrs.group = 0 ∨ (mg = 0 ∧ m ≠ 0) then .error "ZeroDivisionError"
    else if attrs.pads.any (· < 0) then .error "negative Conv padding"
    else if h.len g.rows < 0 ∨ w.len g.cols < 0 then .error "negative dimensions are not allowed"
    else if ¬ (∀ mo < m, ∀ cc < cg, mo / mg * cg + cc < g.channels) then .error "IndexError"
    else if bias.any (fun v => ¬ ∀ mo < m, (v.get? [mo]).isSome) then .error "IndexError"
    else .ok ⟨g.batch, m, (h.len g.rows).toNat, (w.len g.cols).toNat, fun b mo i j =>
      withBias bias mo (.sum (convTerms weight h w g cg mg b mo i j))⟩
  | _ => .error "only 2-D Conv"

/-- A parameter of a batch normalization, along the channels. -/
def channelGrid (values : List 𝕜) : Grid 𝕜 := ⟨1, values.length, 1, 1, fun _ c _ _ => .num (values.getD c 0)⟩

/-- `op_BatchNormalization`. -/
def batchNormGrid (sqrt : 𝕜 → 𝕜) (attrs : Attrs 𝕜) (scale bias mean var : List 𝕜) (g : Grid 𝕜) :
    Except String (Grid 𝕜) := do
  if attrs.training then .error "BatchNormalization training_mode=1"
  else if attrs.extraOutputs then .error "BatchNormalization training outputs"
  else if scale.length ≠ var.length then .error "operands could not be broadcast together"
  else
    let factor := List.zipWith (fun s v => s / sqrt (v + attrs.epsilon)) scale var
    let centred ← zipGrids .sub g (channelGrid mean)
    let scaled ← zipGrids .mul centred (channelGrid factor)
    zipGrids .add scaled (channelGrid bias)

variable (sqrt : 𝕜 → 𝕜) (space : Space 𝕜) (cut : Nat → Bool) (override : Nat → Option (List Nat))

def isConst (i : Nat) : Bool :=
  match space.defs[i]? with
  | some (.const _) => true
  | _ => false

def concrete : Option Nat → Except String (NDArray 𝕜)
  | none => .error "IndexError"
  | some i =>
    match space.defs[i]? with
    | some (.const v) => .ok v
    | _ => .error "operand must be a constant for this encoding"

def scalarOperand : Option (Option Nat) → Except String (Option 𝕜)
  | none | some none => .ok none
  | some (some i) => do
    let v ← concrete space (some i)
    match v.data with
    | [x] => .ok (some x)
    | _ => .error "Clip with non-scalar bounds"

def unaryGrid (f : Term 𝕜 → Term 𝕜) (value : Nat → Except String (Grid 𝕜)) (inputs : List (Option Nat)) :
    Except String (Grid 𝕜) :=
  match presentInputs inputs with
  | [x] => do
    let g ← value x
    .ok (mapGrid f g)
  | _ => .error "wrong number of operands"

def binaryGrid (f : Term 𝕜 → Term 𝕜 → Term 𝕜) (value : Nat → Except String (Grid 𝕜)) (inputs : List (Option Nat)) :
    Except String (Grid 𝕜) :=
  match presentInputs inputs with
  | [x, y] => do
    let g ← value x
    let h ← value y
    zipGrids f g h
  | _ => .error "wrong number of operands"

def opConv (value : Nat → Except String (Grid 𝕜)) (attrs : Attrs 𝕜) (inputs : List (Option Nat)) :
    Except String (Grid 𝕜) :=
  match presentInputs inputs with
  | x :: w :: rest => do
    let g ← value x
    let weight ← concrete space (some w)
    let bias ← rest.head?.mapM fun b => concrete space (some b)
    convGrid attrs weight bias g
  | _ => .error "IndexError"

def opBatchNormalization (value : Nat → Except String (Grid 𝕜)) (attrs : Attrs 𝕜) (inputs : List (Option Nat)) :
    Except String (Grid 𝕜) :=
  match inputs with
  | some x :: scale :: bias :: mean :: var :: _ => do
    let g ← value x
    let scale ← concrete space scale
    let bias ← concrete space bias
    let mean ← concrete space mean
    let var ← concrete space var
    batchNormGrid sqrt attrs scale.data bias.data mean.data var.data g
  | _ => .error "IndexError"

def opClip (value : Nat → Except String (Grid 𝕜)) (inputs : List (Option Nat)) : Except String (Grid 𝕜) :=
  match inputs with
  | some x :: bounds => do
    let g ← value x
    let lo ← scalarOperand space bounds[0]?
    let hi ← scalarOperand space bounds[1]?
    .ok (mapGrid (clip lo hi) g)
  | _ => .error "IndexError"

def opGrid (value : Nat → Except String (Grid 𝕜)) (attrs : Attrs 𝕜) (inputs : List (Option Nat)) :
    OpType → Except String (Grid 𝕜)
  | .conv => opConv space value attrs inputs
  | .batchNormalization => opBatchNormalization sqrt space value attrs inputs
  | .add => binaryGrid .add value inputs
  | .sub => binaryGrid .sub value inputs
  | .mul => binaryGrid .mul value inputs
  | .neg => unaryGrid .neg value inputs
  | .identity => unaryGrid id value inputs
  | .relu => unaryGrid relu value inputs
  | .clip => opClip space value inputs
  | .other _ => .error "unsupported op"

def leafShape (i : Nat) : Except String (List Nat) :=
  match (override i).or (space.shape i) with
  | none => .error "unknown or symbolic shape at a cut point"
  | some shape => if space.isFloat i then .ok shape else .error "non-float tensor at a cut point"

/-- The symbolic tensor of an id: `_Encoder.value`. -/
def encode : Nat → Nat → Except String (Grid 𝕜)
  | 0, _ => .error "recursion"
  | fuel + 1, i =>
    match space.defs[i]? with
    | none => .error "IndexError"
    | some (.const v) => constGrid v
    | some (.input _) => do
      let shape ← leafShape space override i
      leafGrid i shape
    | some (.op domain name attrs inputs outIndex) =>
      if cut i then do
        let shape ← leafShape space override i
        leafGrid i shape
      else if domain ≠ "" ∧ domain ≠ "ai.onnx" then .error "unsupported domain"
      else if outIndex ≠ 0 then .error "unsupported output"
      else opGrid sqrt space (encode fuel) attrs inputs name

end Onnxsim.Certify.Windows

namespace Onnxsim.Certify.Shrinking

open Overflow.Arrays Windows

/-- Patch geometry along one spatial axis, in input pixels. -/
structure Axis where
  stride : Int
  lead : Int
  tail : Int
deriving DecidableEq

def unitAxis : Axis := ⟨1, 0, 1⟩

/-- The patch of a convolution over an operand with patch `g`. -/
def convPatch (a : ConvAxis) (g : Axis) : Axis :=
  ⟨g.stride * a.stride, g.lead + a.padBefore * g.stride,
    g.tail + (((a.kernel : Int) - 1) * a.dilation - a.padBefore) * g.stride⟩

def join (g h : Axis) : Axis := ⟨g.stride, max g.lead h.lead, max g.tail h.tail⟩

def uniformConst (shape : List Nat) : Bool :=
  match padded shape with
  | [n, _, h, w] => n = 1 && h = 1 && w = 1
  | _ => false

variable {𝕜 : Type} (space : Space 𝕜) (cut : Nat → Bool)

abbrev Leaves (α : Type) := StateT (List Nat) (Except String) α

def noShrink {α : Type} (why : String) : Leaves α := fun _ => .error why

def addLeaf (i : Nat) : Leaves Unit := fun ls => .ok ((), if i ∈ ls then ls else ls ++ [i])

def orNoShrink {α : Type} (x : Except String α) : Leaves α := fun ls =>
  match x with
  | .ok a => .ok (a, ls)
  | .error e => .error e

/-- The constants of an elementwise operator have to be uniform over batch and space. -/
def uniformOperands (ins : List Nat) : Bool :=
  ins.all fun x => match space.defs[x]? with
    | some (.const v) => uniformConst v.shape
    | _ => true

def convGeo (geo : Nat → Leaves (Axis × Axis)) (attrs : Attrs 𝕜) (ins : List Nat) : Leaves (Axis × Axis) :=
  match ins with
  | x :: w :: rest =>
    if isConst space x || !(w :: rest).all (isConst space) then noShrink "Conv with non-constant weights"
    else
      match space.defs[w]? with
      | some (.const weight) =>
        if weight.shape.length ≠ 4 then noShrink "only 2-D Conv can be shrunk"
        else if attrs.autoPad ≠ "NOTSET" then noShrink "Conv auto_pad"
        else if attrs.pads.any (· < 0) then noShrink "negative Conv padding"
        else do
          let g ← geo x
          let h ← orNoShrink (convAxis attrs weight.shape 0)
          let w ← orNoShrink (convAxis attrs weight.shape 1)
          pure (convPatch h g.1, convPatch w g.2)
      | _ => noShrink "Conv with non-constant weights"
  | _ => noShrink "Conv with non-constant weights"

def unaryGeo (geo : Nat → Leaves (Axis × Axis)) (ins : List Nat) : Leaves (Axis × Axis) :=
  match ins with
  | x :: rest =>
    if isConst space x || !rest.all (isConst space) then noShrink "a non-constant extra operand" else geo x
  | [] => noShrink "IndexError"

def binaryGeo (geo : Nat → Leaves (Axis × Axis)) (ins : List Nat) : Leaves (Axis × Axis) :=
  match ins with
  | [x, y] =>
    if isConst space x && isConst space y then noShrink "an operator of two constants"
    else if !uniformOperands space ins then noShrink "a constant varies over space or batch"
    else if isConst space y then geo x
    else if isConst space x then geo y
    else do
      let g ← geo x
      let h ← geo y
      if g.1.stride ≠ h.1.stride ∨ g.2.stride ≠ h.2.stride then noShrink "joins branches with different strides"
      else pure (join g.1 h.1, join g.2 h.2)
  | _ => noShrink "arity"

def geo : Nat → Nat → Leaves (Axis × Axis)
  | 0, _ => noShrink "recursion"
  | fuel + 1, i =>
    match space.defs[i]? with
    | none => noShrink "IndexError"
    | some (.const _) => noShrink "a constant is used as a spatial tensor"
    | some (.input _) => do
      addLeaf i
      pure (unitAxis, unitAxis)
    | some (.op domain name attrs inputs outIndex) =>
      if cut i then do
        addLeaf i
        pure (unitAxis, unitAxis)
      else if (domain ≠ "" ∧ domain ≠ "ai.onnx") ∨ outIndex ≠ 0 then noShrink "not a spatially local op"
      else
        match name with
        | .conv => convGeo space (geo fuel) attrs (presentInputs inputs)
        | .batchNormalization | .identity | .relu | .clip | .neg => unaryGeo space (geo fuel) (presentInputs inputs)
        | .add | .sub | .mul => binaryGeo space (geo fuel) (presentInputs inputs)
        | .other _ => noShrink "not a spatially local op"

/-- The length of an elementwise operator: that of its operands, if they agree. -/
def sameLen (lens : List Int) : Except String Int :=
  match lens with
  | [] => .error "operands of an elementwise op differ in spatial size"
  | l :: rest => if rest.all (· = l) then .ok l else .error "operands of an elementwise op differ in spatial size"

/-- The spatial length of a tensor along an axis when the leaves have extent `n`. -/
def slen (ax : Nat) (n : Int) : Nat → Nat → Except String Int
  | 0, _ => .error "recursion"
  | fuel + 1, i =>
    match space.defs[i]? with
    | some (.input _) => .ok n
    | some (.op _ name attrs inputs _) =>
      if cut i then .ok n
      else if name = .conv then
        match presentInputs inputs with
        | x :: w :: _ =>
          match space.defs[w]? with
          | some (.const weight) => do
            let l ← slen ax n fuel x
            let a ← convAxis attrs weight.shape ax
            .ok (a.len l)
          | _ => .error "Conv with non-constant weights"
        | _ => .error "IndexError"
      else do
        let lens ← ((presentInputs inputs).filter fun x => !isConst space x).mapM (slen ax n fuel)
        sameLen lens
    | _ => .error "operands of an elementwise op differ in spatial size"

def topAffected (g : Axis) (p : Int) : Bool := p * g.stride - g.lead < 0

def bottomAffected (g : Axis) (n p : Int) : Bool := n < p * g.stride + g.tail

/-- Output length, top and bottom positions at an extent; none when it is not safe to shrink to. -/
def classify (fuel : Nat) (g : Axis) (a b ax : Nat) (n : Int) : Except String (Option (Int × Nat × Nat)) := do
  let la ← slen space cut ax n fuel a
  let lb ← slen space cut ax n fuel b
  if la ≠ lb ∨ la < 1 then .ok none
  else
    let ps := (List.range la.toNat).map fun p : Nat => (p : Int)
    if ps.any fun p => topAffected g p && bottomAffected g n p then .ok none
    else if ps.all fun p => topAffected g p || bottomAffected g n p then .ok none
    else .ok (some (la, ps.countP (topAffected g), ps.countP (bottomAffected g n)))

def bestExtent (fuel : Nat) (g : Axis) (a b ax : Nat) (n : Int) (full : Int × Nat × Nat) :
    List Nat → Int → Except String Int
  | [], best => .ok best
  | k :: rest, best =>
    let m := n - k * g.stride
    if m < 1 then .ok best
    else do
      let c ← classify space cut fuel g a b ax m
      bestExtent fuel g a b ax n full rest (if c.any fun c => c.2 = full.2 then m else best)

def shrinkAxis (fuel : Nat) (g : Axis) (a b ax : Nat) (n : Nat) : Except String Nat := do
  match ← classify space cut fuel g a b ax n with
  | none => .error "the full-size window has no interior position to preserve"
  | some full =>
    if (space.shape a).any fun known => known.length = 4 && ((known.getD (2 + ax) 0 : Nat) : Int) ≠ full.1 then
      .error "output size disagrees with the shape-propagation formula"
    else
      let ks := (List.range ((((n : Int) - 1) / g.stride).toNat)).map (· + 1)
      let best ← bestExtent space cut fuel g a b ax n full ks n
      if best = n then .error "no smaller extent preserves the border structure" else .ok best.toNat

structure Reduction where
  fullHw : Nat × Nat
  reducedHw : Nat × Nat
  axes : Axis × Axis
  leaves : List Nat
deriving DecidableEq

def Reduction.shape (red : Reduction) (i : Nat) : Option (List Nat) :=
  if i ∈ red.leaves then
    match space.shape i with
    | some [_, c, _, _] => some [1, c, red.reducedHw.1, red.reducedHw.2]
    | _ => none
  else none

def commonSize : List (Option (List Nat)) → Except String (Nat × Nat)
  | [] => .error "leaves must be rank-4 NCHW tensors with known shapes"
  | some [_, _, h, w] :: rest =>
    if rest.all fun s => match s with
      | some [_, _, _, _] => true
      | _ => false then
      if rest.all fun s => (s.map fun l => l.drop 2) = some [h, w] then .ok (h, w)
      else .error "leaves have different spatial sizes"
    else .error "leaves must be rank-4 NCHW tensors with known shapes"
  | _ :: _ => .error "leaves must be rank-4 NCHW tensors with known shapes"

abbrev InputRanges (𝕜 : Type) := String → Option (NDArray 𝕜 × NDArray 𝕜)

/-- The range of a leaf: of an input that one is given for. -/
def leafRange (ranges : InputRanges 𝕜) (i : Nat) : Option (NDArray 𝕜 × NDArray 𝕜) :=
  match space.defs[i]? with
  | some (.input name) => ranges name
  | _ => none

def uniformRange (r : NDArray 𝕜 × NDArray 𝕜) : Bool := uniformConst r.1.shape && uniformConst r.2.shape

/-- `_plan_reduction`. -/
def planReduction (fuel a b : Nat) (ranges : InputRanges 𝕜) : Except String Reduction := do
  let ((ga, gb), leaves) ← (do
    let ga ← geo space cut fuel a
    let gb ← geo space cut fuel b
    pure (ga, gb) : Leaves ((Axis × Axis) × (Axis × Axis))) []
  if ga.1.stride ≠ gb.1.stride ∨ ga.2.stride ≠ gb.2.stride then .error "the two sides have different total strides"
  else
    let axes := (join ga.1 gb.1, join ga.2 gb.2)
    let hw ← commonSize (leaves.map space.shape)
    if !leaves.all fun i => (leafRange space ranges i).all uniformRange then
      .error "input range varies over space or batch"
    else
      let h ← shrinkAxis space cut fuel axes.1 a b 0 hw.1
      let w ← shrinkAxis space cut fuel axes.2 a b 1 hw.2
      .ok ⟨hw, (h, w), axes, leaves⟩

end Onnxsim.Certify.Shrinking
