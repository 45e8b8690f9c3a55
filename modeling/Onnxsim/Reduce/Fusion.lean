import Onnxsim.PartialShape.Meaning
import Onnxsim.Reduce.Axes

namespace Onnxsim.Reduce.Fusion

open Overflow.Arrays Axes

inductive ReduceKind where
  | reduceSum
  | reduceMean
  | reduceMax
  | reduceMin
  | reduceProd
  | reduceL1
  | reduceL2
  | reduceLogSumExp
  | reduceLogSum
  | reduceSumSquare
deriving DecidableEq, Repr

/-- How a node spells its axes; `dynamic` is an input that is not a constant. -/
inductive AxesOperand where
  | byAttribute (axes : List Int)
  | constant (axes : List Int)
  | dynamic
  | omitted
deriving DecidableEq, Repr

structure ReduceNode where
  kind : ReduceKind
  axes : AxesOperand
  noopWithEmptyAxes : Option Int
  keepdims : Option Int
deriving DecidableEq, Repr

inductive Dimension where
  | unknown
  | param (name : String)
  | size (dim : Int)
deriving DecidableEq, Repr

/-- The operator between the two reductions, with the operand that it runs on. -/
inductive ReshapeLike where
  | reshape (allowzero : Bool) (shape : List Int)
  | squeeze (axes : Option (List Int))
  | unsqueeze (axes : List Int)
deriving DecidableEq, Repr

/-- A reduction `n` of the result of `a`, or of a reshape of it, and what is declared of the tensors. -/
structure Pair where
  a : ReduceNode
  aUses : Nat
  reshape : Option ReshapeLike
  reshapeUses : Nat
  n : ReduceNode
  xSizes : Option (List Dimension)
  reshapeSizes : Option (List Dimension)
  opset : Int

def isFusableReduceKind (k : ReduceKind) : Bool :=
  k ∈ [.reduceSum, .reduceMean, .reduceMax, .reduceMin, .reduceProd, .reduceL1, .reduceL2, .reduceLogSumExp]

def axesIsInputAtOpset (k : ReduceKind) (opset : Int) : Bool :=
  if opset = 0 then true else if k = .reduceSum then 13 ≤ opset else 18 ≤ opset

def getKeepdims (n : ReduceNode) : Int := n.keepdims.getD 1

def allAxes (rank : Nat) : List Int := List.map (fun i : Nat => (i : Int)) (List.range rank)

variable (addYIfNegative : Int → Int → Int)

/-- Axes that are spelled out; without a rank there must be none to count from the back. -/
def normalizeAxes (raw : List Int) : Option Nat → Option (List Int)
  | some r => some (raw.map fun a => addYIfNegative a r)
  | none => if raw.any fun a => a < 0 then none else some raw

def resolveAxes (node : ReduceNode) (rank : Option Nat) : Option (List Int × Bool) :=
  let everything := rank.map fun r => (allAxes r, false)
  let spelled := fun raw : List Int =>
    if raw = [] then if node.noopWithEmptyAxes.getD 0 ≠ 0 then some ([], true) else everything
    else (normalizeAxes addYIfNegative raw rank).map fun axes => (axes, false)
  match node.axes with
  | .byAttribute raw => spelled raw
  | .constant raw => spelled raw
  | .dynamic => none
  | .omitted => everything

/-- `ReducedShape`, from the position `i` on. -/
def reducedDims (keepdims : Bool) : Int → List Int → List Dimension → List Dimension
  | _, _, [] => []
  | _, [], d :: dims => d :: dims
  | i, a :: axes, d :: dims =>
    if a = i then
      if keepdims then .size 1 :: reducedDims keepdims (i + 1) axes dims else reducedDims keepdims (i + 1) axes dims
    else d :: reducedDims keepdims (i + 1) (a :: axes) dims

def sameDim : Dimension → Dimension → Bool
  | .size d, .size d' => d = d'
  | .param s, .param s' => s = s'
  | _, _ => false

def sameShape : List Dimension → List Dimension → Bool
  | [], [] => true
  | a :: as, b :: bs => sameDim a b && sameShape as bs
  | _, _ => false

/-- The inner loop: skip removed positions from `orig` on. -/
def skipRemoved : List Int → Int → List Int × Int
  | [], orig => ([], orig)
  | r :: removed, orig => if r = orig then skipRemoved removed (orig + 1) else (r :: removed, orig)

def mapThrough : Nat → List Int → Int → Int
  | 0, removed, orig => (skipRemoved removed orig).2
  | steps + 1, removed, orig =>
    let skipped := skipRemoved removed orig
    mapThrough steps skipped.1 (skipped.2 + 1)

/-- `MapThroughRemovedAxes`, which does not return for a negative index. -/
def mapThroughRemovedAxes (removed : List Int) (idx : Int) : Option Int :=
  if idx < 0 then none else some (mapThrough idx.toNat removed 0)

/-- `std::sort` and `std::unique`. -/
def sortUnique (axes : List Int) : List Int := axes.dedup.insertionSort (· ≤ ·)

def patternMatchPredicate (p : Pair) : Bool :=
  isFusableReduceKind p.n.kind && p.a.kind == p.n.kind && p.aUses == 1 && (p.reshape.isNone || p.reshapeUses == 1)

inductive Outcome where
  | declines
  | diverges
  | fuses (fused : ReduceNode)
deriving DecidableEq, Repr

/-- The keepdims setting that `n` sees the result of `a` through; none where the reshape in between is not the
one that toggles it. -/
def effectiveKeepdims (p : Pair) (aAxes : List Int) : Option Bool :=
  let ka : Bool := getKeepdims p.a ≠ 0
  match p.reshape with
  | none => some ka
  | some _ =>
    match p.xSizes, p.reshapeSizes with
    | some xSizes, some sizes => if sameShape (reducedDims (!ka) 0 aAxes xSizes) sizes then some !ka else none
    | _, _ => none

def fusedAxes (keep : Bool) (aAxes nAxes : List Int) : Option (List Int) :=
  (if keep then some nAxes else nAxes.mapM (mapThroughRemovedAxes aAxes)).map fun mapped =>
    sortUnique (aAxes ++ mapped)

def fusedNode (p : Pair) (axes : List Int) : ReduceNode :=
  let axesIsInput := match p.n.axes with
    | .byAttribute _ => false
    | .omitted => axesIsInputAtOpset p.n.kind p.opset
    | _ => true
  ⟨p.n.kind, if axesIsInput then .constant axes else .byAttribute axes, none, some (getKeepdims p.n)⟩

/-- The rank that the axes of `n` are resolved against. -/
def midRank (keep : Bool) (xRank : Option Nat) (aAxes : List Int) : Option Nat :=
  xRank.map fun r => if keep then r else r - aAxes.length

def runTransform (p : Pair) : Outcome :=
  let xRank := p.xSizes.map List.length
  match resolveAxes addYIfNegative p.a xRank with
  | none | some (_, true) => .declines
  | some (aAxes, false) =>
    let aAxes := sortUnique aAxes
    match effectiveKeepdims p aAxes with
    | none => .declines
    | some keep =>
      match resolveAxes addYIfNegative p.n (midRank keep xRank aAxes) with
      | none | some (_, true) => .declines
      | some (nAxes, false) =>
        match fusedAxes keep aAxes (sortUnique nAxes) with
        | none => .diverges
        | some axes => .fuses (fusedNode p axes)

/-- `FuseConsecutiveReduce` on a pair. -/
def fuse (p : Pair) : Outcome := if patternMatchPredicate p then runTransform addYIfNegative p else .declines

open Lib.Reductions PartialShape.Reshaping

/-- The operation of a kind over the rationals, where reducing over it twice is reducing over it once. -/
def operation : ReduceKind → Option (Reduction (Option ℚ))
  | .reduceSum => some sum
  | .reduceMean => some mean
  | .reduceMax => some Lib.Reductions.max
  | .reduceMin => some Lib.Reductions.min
  | .reduceProd => some prod
  | _ => none

abbrev Tensor := NDArray (Option ℚ)

/-- An axis between `-rank` and `rank - 1`, counted from the front. -/
def axisOf (rank : Nat) (a : Int) : Option Int :=
  if 0 ≤ a ∧ a < rank then some a else if a < 0 ∧ -rank ≤ a then some (a + rank) else none

def maskFrom (axes : List Int) : Int → Nat → List Bool
  | _, 0 => []
  | i, rank + 1 => decide (i ∈ axes) :: maskFrom axes (i + 1) rank

def maskOf (axes : List Int) (rank : Nat) : List Bool := maskFrom axes 0 rank

inductive Reach where
  | identity
  | along (mask : List Bool)

def spelledAxes : AxesOperand → Option (List Int)
  | .byAttribute axes => some axes
  | .constant axes => some axes
  | .omitted => some []
  | .dynamic => none

/-- What a node reduces: without axes everything, or nothing when `noop_with_empty_axes` is set. -/
def reach (node : ReduceNode) (rank : Nat) : Option Reach :=
  (spelledAxes node.axes).bind fun axes =>
    if axes = [] then
      if node.noopWithEmptyAxes.getD 0 ≠ 0 then some .identity else some (.along (List.replicate rank true))
    else (axes.mapM (axisOf rank)).map fun as => .along (maskOf as rank)

def keeps (node : ReduceNode) : Bool := getKeepdims node ≠ 0

def ReduceNode.eval (node : ReduceNode) (x : Tensor) : Option Tensor :=
  (operation node.kind).bind fun R =>
    (reach node x.shape.length).map fun
      | .identity => x
      | .along mask => reduce R (keeps node) mask x

def insertUnits : List Bool → List Nat → Option (List Nat)
  | [], [] => some []
  | [], _ :: _ => none
  | true :: mask, dims => (insertUnits mask dims).map (1 :: ·)
  | false :: _, [] => none
  | false :: mask, d :: dims => (insertUnits mask dims).map (d :: ·)

def removeUnits : List Bool → List Nat → Option (List Nat)
  | [], dims => some dims
  | _ :: _, [] => none
  | true :: mask, d :: dims => if d = 1 then removeUnits mask dims else none
  | false :: mask, d :: dims => (removeUnits mask dims).map (d :: ·)

def ReshapeLike.shape (op : ReshapeLike) (dims : List Nat) : Option (List Nat) :=
  match op with
  | .reshape allowzero target => targetDims allowzero dims target
  | .squeeze none => some (dims.filter fun d => d ≠ 1)
  | .squeeze (some axes) => (axes.mapM (axisOf dims.length)).bind fun as => removeUnits (maskOf as dims.length) dims
  | .unsqueeze axes =>
    let rank := dims.length + axes.length
    (axes.mapM (axisOf rank)).bind fun as => if as.Nodup then insertUnits (maskOf as rank) dims else none

def ReshapeLike.eval (op : ReshapeLike) (x : Tensor) : Option Tensor :=
  (op.shape x.shape).bind fun shape =>
    if h : x.data.length = shape.prod then some ⟨shape, x.data, h⟩ else none

/-- What `n` is applied to. -/
def Pair.middle (p : Pair) (x : Tensor) : Option Tensor :=
  (p.a.eval x).bind fun y =>
    match p.reshape with
    | none => some y
    | some op => op.eval y

def Pair.eval (p : Pair) (x : Tensor) : Option Tensor := (p.middle x).bind p.n.eval

/-- The declared dimension is the real one, under the values of the symbols. -/
def Dimension.Means (ν : String → Nat) : Dimension → Nat → Prop
  | .unknown, _ => True
  | .param s, n => n = ν s
  | .size d, n => (n : Int) = d

def Conforms (ν : String → Nat) (sizes : List Dimension) (shape : List Nat) : Prop :=
  List.Forall₂ (Dimension.Means ν) sizes shape

/-- What is declared of the tensors of a pair holds in the run on `x`. -/
structure Pair.Declared (p : Pair) (ν : String → Nat) (x : Tensor) : Prop where
  input : ∀ sizes, p.xSizes = some sizes → Conforms ν sizes x.shape
  reshaped : ∀ sizes mid, p.reshapeSizes = some sizes → p.reshape ≠ none → p.middle x = some mid →
    Conforms ν sizes mid.shape

end Onnxsim.Reduce.Fusion
