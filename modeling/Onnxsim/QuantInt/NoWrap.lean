import Onnxsim.Overflow.Operators

namespace Onnxsim.QuantInt.Layers

open Overflow.Arrays

def INT32_MIN : Int := -2 ^ 31

def INT32_MAX : Int := 2 ^ 31 - 1

def UINT8 : Nat := 2

/-- `_INT_RANGES`, by the ONNX element type. -/
def intRanges : Nat → Option (Int × Int)
  | 2 => some (0, 255)
  | 3 => some (-128, 127)
  | 4 => some (0, 65535)
  | 5 => some (-32768, 32767)
  | _ => none

/-- A constant array. Of the scales only the sizes matter here. -/
structure Const where
  dtype : Nat
  array : NDArray Int

def Const.size (c : Const) : Nat := c.array.data.length

def Const.ndim (c : Const) : Nat := c.array.shape.length

def entry (a : NDArray Int) (idx : List Nat) : Int := (a.get? idx).getD 0

/-- The attributes of a convolution, an absent one with its default. -/
structure ConvAttrs where
  strides : Nat × Nat
  dilations : Nat × Nat
  pads : Nat × Nat × Nat × Nat
  group : Nat
  autoPad : String
  strides_pos : 0 < strides.1 ∧ 0 < strides.2
  dilations_pos : 0 < dilations.1 ∧ 0 < dilations.2
  group_pos : 0 < group

structure Node where
  opType : String
  name : String
  input : List String
  output : List String
  attrs : ConvAttrs

inductive Verdict where
  | proved | refuted | skipped
deriving DecidableEq, Repr

inductive Severity where
  | soundness | informational
deriving DecidableEq, Repr

structure Finding where
  kind : String
  severity : Severity
  verdict : Verdict
  detail : String
  method : String
  counterexample : Option (NDArray Int)

structure Geometry where
  padded : Bool
  interior : Option (Int × Int)
  xHw : Option (Int × Int)

/-- `_conv_geometry` -/
def convGeometry (attrs : ConvAttrs) (kh kw : Nat) (xShape : Option (List Nat)) : Geometry :=
  let (s0, s1) := attrs.strides
  let (d0, d1) := attrs.dilations
  let (p0, p1, p2, p3) := attrs.pads
  let padded : Bool := ¬(p0 = 0 ∧ p1 = 0 ∧ p2 = 0 ∧ p3 = 0)
  match xShape with
  | some [_, _, h, w] =>
    let oy : Int := -(-(p0 : Int) / s0)
    let ox : Int := -(-(p1 : Int) / s1)
    let oh : Int := ((h : Int) + p0 + p2 - d0 * ((kh : Int) - 1) - 1) / s0 + 1
    let ow : Int := ((w : Int) + p1 + p3 - d1 * ((kw : Int) - 1) - 1) / s1 + 1
    let inside := oy < oh ∧ ox < ow ∧ oy * s0 - p0 + d0 * ((kh : Int) - 1) ≤ (h : Int) - 1 ∧
      ox * s1 - p1 + d1 * ((kw : Int) - 1) ≤ (w : Int) - 1
    ⟨padded, if inside then some (oy, ox) else none, some (h, w)⟩
  | _ => ⟨padded, if padded then none else some (0, 0), none⟩

/-- `accumulator_range` -/
def accumulatorRange (w : List Int) (dLo dHi bias : Int) : Int × Int :=
  let p := (w.filter fun v => 0 < v).sum
  let n := ((w.filter fun v => v < 0).map fun v => -v).sum
  (bias + p * dLo - n * dHi, bias + p * dHi - n * dLo)

/-- `_vertex_input` -/
def vertexInput (w : List Int) (dLo dHi : Int) (maximise : Bool) : List Int :=
  let hiIfPos := if maximise then dHi else dLo
  let loIfPos := if maximise then dLo else dHi
  w.map fun v => if 0 ≤ v then hiIfPos else loIfPos

/-- `_bound_with_padding` -/
def boundWithPadding (w : List Int) (dLo dHi : Int) (padded : Bool) : Int × Int × Bool × Bool :=
  let cHi := w.map fun v => max (v * dLo) (v * dHi)
  let cLo := w.map fun v => min (v * dLo) (v * dHi)
  if ¬padded then (cLo.sum, cHi.sum, true, true)
  else
    ((cLo.map fun c => min c 0).sum, (cHi.map fun c => max c 0).sum, cLo.all fun c => c ≤ 0,
      cHi.all fun c => 0 ≤ c)

structure Layer where
  name : String
  opType : String
  wq : List (List Int)
  dLo : Int
  dHi : Int
  bias : List Int
  isConv : Bool
  geometry : Option Geometry
  za : Int
  aDtype : Nat
  convAttrs : ConvAttrs
  wshape : List Nat
  notes : List String

variable (consts : String → Option Const)

/-- `_scalar` -/
def scalar (name : String) : Option Int :=
  if name = "" then none
  else (consts name).bind fun c => if c.size = 1 then c.array.data.head? else none

/-- `_act_range_from` -/
def actRangeFrom (za : Int) (aDtype : Nat) (actRange : Option (Int × Int)) : Int × Int × String :=
  let (qlo, qhi) := (intRanges aDtype).getD (0, 255)
  match actRange with
  | none => (qlo - za, qhi - za, "")
  | some (lo, hi) =>
    let qlo := max qlo lo
    let qhi := min qhi hi
    (qlo - za, qhi - za, "activation codes restricted to [" ++ toString qlo ++ ", " ++ toString qhi ++ "]")

/-- The rows of taps of a convolution. A zero point of any other size than one or the channels' is dropped. -/
def convRows (w : NDArray Int) (zp : Option Const) (cout cg kh kw : Nat) : List (List Int) :=
  (List.range cout).map fun co => (indices [cg, kh, kw]).map fun t =>
    match zp with
    | none => entry w (co :: t) - 0
    | some z =>
      if z.ndim = 1 ∧ z.size = cout then entry w (co :: t) - z.array.data.getD co 0
      else if z.size = 1 then entry w (co :: t) - z.array.data.getD 0 0
      else entry w (co :: t)

def matmulRows (w : NDArray Int) (zp : Option Const) (k n : Nat) : List (List Int) :=
  (List.range n).map fun c => (List.range k).map fun r =>
    match zp with
    | none => entry w [r, c] - 0
    | some z =>
      if z.ndim = 1 ∧ z.size = n then entry w [r, c] - z.array.data.getD c 0
      else entry w [r, c] - z.array.data.getD 0 0

/-- What `_extract_layer` asks of the scales and the output zero point of a `QLinear` node. -/
def checkRequant (scales : List String) (channels : Nat) : Except String Unit :=
  let asc := scales.getD 0 ""
  let wsc := scales.getD 1 ""
  let ysc := scales.getD 2 ""
  let yzp := scales.getD 3 ""
  match scalar consts asc, scalar consts ysc, scalar consts yzp, consts wsc, consts yzp with
  | some _, some _, some _, some sw, some zy =>
    if (intRanges zy.dtype).isNone then .error ("unsupported output dtype " ++ toString zy.dtype)
    else if sw.size ≠ 1 ∧ sw.size ≠ channels then
      .error "weight scale is neither per-tensor nor per-output-channel"
    else .ok ()
  | _, _, _, _, _ => .error "requantisation scales / output zero point are not constants"

/-- The inputs of a node under their names. -/
structure Inputs where
  a : String
  w : String
  azp : String
  wzp : String
  bias : String
  qlin : Option (List String)

def readInputs (node : Node) : Except String Inputs :=
  let ins (i : Nat) : String := node.input.getD i ""
  if node.opType = "MatMulInteger" ∨ node.opType = "ConvInteger" then
    .ok ⟨ins 0, ins 1, ins 2, ins 3, "", none⟩
  else if node.opType = "QLinearMatMul" ∨ node.opType = "QLinearConv" then
    .ok ⟨ins 0, ins 3, ins 2, ins 5, if node.opType = "QLinearConv" then ins 8 else "",
      some [ins 1, ins 4, ins 6, ins 7]⟩
  else .error ("unsupported op " ++ node.opType)

def isConvOp (op : String) : Bool := op = "ConvInteger" ∨ op = "QLinearConv"

/-- The weight matrix, its rows the channels, and the geometry of a convolution. -/
def weightRows (node : Node) (w : Const) (zp : Option Const) (xShape : Option (List Nat)) :
    Except String (List (List Int) × Option Geometry) :=
  if isConvOp node.opType then
    match w.array.shape with
    | [cout, cg, kh, kw] =>
      if node.attrs.autoPad ≠ "NOTSET" then .error "auto_pad is not handled"
      else .ok (convRows w.array zp cout cg kh kw, some (convGeometry node.attrs kh kw xShape))
    | _ => .error "only 2-D convolution is handled"
  else
    match w.array.shape with
    | [k, n] =>
      if zp.all fun z => (z.ndim = 1 ∧ z.size = n) ∨ z.size = 1 then .ok (matmulRows w.array zp k n, none)
      else .error "per-row weight zero point is not handled"
    | _ => .error "only 2-D (K, N) MatMul weights are handled"

def activationZeroPoint (name : String) : Except String Int :=
  if name = "" then .ok 0
  else
    match scalar consts name with
    | some z => .ok z
    | none => .error "activation zero point is not a scalar constant"

def activationDtype (elemTypes : String → Option Nat) (a azp : String) : Nat :=
  match elemTypes a with
  | some (t + 1) => t + 1
  | _ => ((consts azp).map Const.dtype).getD UINT8

def weightZeroPoint (name : String) : Except String (Option Const) :=
  if name = "" then .ok none
  else
    match consts name with
    | some z => .ok (some z)
    | none => .error "weight zero point is not a constant"

def readBias (name : String) (channels : Nat) : Except String (List Int) :=
  if name = "" then .ok (List.replicate channels 0)
  else
    match consts name with
    | some b => .ok b.array.data
    | none => .error "bias is not a constant"

def requant (qlin : Option (List String)) (channels : Nat) : Except String Unit :=
  match qlin with
  | some scales => checkRequant consts scales channels
  | none => .ok ()

/-- `_extract_layer`; the error is the reason it gives. -/
def extractLayer (node : Node) (elemTypes : String → Option Nat) (shapes : String → Option (List Nat))
    (actRange : Option (Int × Int)) : Except String Layer := do
  let ins ← readInputs node
  let some w := consts ins.w | .error "weight is not a constant"
  let za ← activationZeroPoint consts ins.azp
  let aDtype := activationDtype consts elemTypes ins.a ins.azp
  if (intRanges aDtype).isNone then .error ("unsupported activation dtype " ++ toString aDtype)
  else
    let assumed := if ins.azp = "" ∧ (elemTypes ins.a).isNone then
      ["activation dtype unknown, assumed uint8"] else []
    let zp ← weightZeroPoint consts ins.wzp
    let (dLo, dHi, rn) := actRangeFrom za aDtype actRange
    let (wmat, geom) ← weightRows node w zp (shapes ins.a)
    let bias ← readBias consts ins.bias wmat.length
    let _ ← requant consts ins.qlin wmat.length
    .ok {
      name := if node.name = "" then node.opType ++ "_" ++ node.output.getD 0 "" else node.name
      opType := node.opType
      wq := wmat
      dLo := dLo
      dHi := dHi
      bias := bias
      isConv := isConvOp node.opType
      geometry := geom
      za := za
      aDtype := aDtype
      convAttrs := node.attrs
      wshape := w.array.shape
      notes := if rn = "" then assumed else assumed ++ [rn] }

end Onnxsim.QuantInt.Layers

namespace Onnxsim.QuantInt.NoWrap

open Overflow.Arrays Layers

/-- What `_channel_ranges` knows of one channel: the bounds of its accumulator, and whether they are attained. -/
structure ChannelRange where
  min : Int
  max : Int
  minAttained : Bool
  maxAttained : Bool

def biasAt (bias : List Int) (c : Nat) : Int := if 1 < bias.length then bias.getD c 0 else bias.getD 0 0

def channelRange (layer : Layer) (c : Nat) (w : List Int) : ChannelRange :=
  let b := biasAt layer.bias c
  match layer.isConv, layer.geometry with
  | true, some g =>
    let (lo, hi, eLo, eHi) := boundWithPadding w layer.dLo layer.dHi g.padded
    let reached := g.interior.isSome || !g.padded
    ⟨lo + b, hi + b, eLo && reached, eHi && reached⟩
  | _, _ =>
    let (lo, hi) := accumulatorRange w layer.dLo layer.dHi b
    ⟨lo, hi, true, true⟩

/-- `_channel_ranges` -/
def channelRanges (layer : Layer) : List ChannelRange := layer.wq.mapIdx (channelRange layer)

/-- The first greatest value with its index, `np.argmax`. -/
def argmax : List Int → Option (Nat × Int)
  | [] => none
  | x :: xs =>
    match argmax xs with
    | none => some (0, x)
    | some (i, y) => if x < y then some (i + 1, y) else some (0, x)

def argmin (xs : List Int) : Option (Nat × Int) := (argmax (xs.map fun x => -x)).map fun p => (p.1, -p.2)

/-- `astype` of one value. -/
def castTo (dtype : Nat) (v : Int) : Int :=
  let (lo, hi) := (intRanges dtype).getD (0, 255)
  (v - lo) % (hi - lo + 1) + lo

/-- `x[idx] = v` -/
def assign (x : NDArray Int) (idx : List Nat) (v : Int) : NDArray Int :=
  match offset x.shape idx with
  | some k => ⟨x.shape, x.data.set k v, List.length_set.trans x.length_data⟩
  | none => x

/-- Where the tap of kernel index `t` of group `g` reads, the window at `(top, left)`. -/
def tapIndex (attrs : ConvAttrs) (g cg : Nat) (top left : Int) (t : List Nat) : List Nat :=
  [0, g * cg + t.getD 0 0, (top + t.getD 1 0 * attrs.dilations.1).toNat,
    (left + t.getD 2 0 * attrs.dilations.2).toNat]

/-- `_conv_counterexample` -/
def convCounterexample (layer : Layer) (d : List Int) (co : Nat) : NDArray Int :=
  let cout := layer.wshape.getD 0 0
  let cg := layer.wshape.getD 1 0
  let kh := layer.wshape.getD 2 0
  let kw := layer.wshape.getD 3 0
  let (s0, s1) := layer.convAttrs.strides
  let (d0, d1) := layer.convAttrs.dilations
  let (p0, p1, _, _) := layer.convAttrs.pads
  let group := layer.convAttrs.group
  let oy : Int := -(-(p0 : Int) / s0)
  let ox : Int := -(-(p1 : Int) / s1)
  let h : Int := oy * s0 - p0 + d0 * ((kh : Int) - 1) + 1
  let w : Int := ox * s1 - p1 + d1 * ((kw : Int) - 1) + 1
  let (h, w) := match layer.geometry.bind Geometry.xHw with
    | some (xh, xw) => (max h xh, max w xw)
    | none => (h, w)
  let x := NDArray.full [1, cg * group, h.toNat, w.toNat] layer.za
  let g := co / (cout / group)
  let filled := (indices [cg, kh, kw]).zipIdx.foldl (fun x tn =>
    assign x (tapIndex layer.convAttrs g cg (oy * s0 - p0) (ox * s1 - p1) tn.1) (layer.za + d.getD tn.2 0)) x
  filled.map (castTo layer.aDtype)

def matmulCounterexample (layer : Layer) (d : List Int) : NDArray Int :=
  NDArray.ofFn [1, d.length] fun idx => castTo layer.aDtype (d.getD (idx.getD 1 0) 0 + layer.za)

/-- What Z3 answers to `z3_no_wrap`; none when it is not installed. -/
abbrev Solver := List Int → Int → Int → Int → Option Verdict

def pyBool (b : Bool) : String := if b then "True" else "False"

/-- `_z3_cross_check` -/
def z3CrossCheck (solve : Solver) (layer : Layer) (cHi cLo z3MaxK : Nat) (expectWrap : Bool) : List Finding :=
  if layer.isConv && layer.geometry.any Geometry.padded then []
  else check (if cHi = cLo then [cHi] else [cHi, cLo])
where
  check : List Nat → List Finding
    | [] => [⟨"no-wrap-z3", .informational, .proved, "Z3 bit-vector semantics agree with the closed form",
        "z3 (fresh context)", none⟩]
    | c :: cs =>
      let nz := (layer.wq.getD c []).filter fun v => v ≠ 0
      if z3MaxK < nz.length then []
      else
        match solve nz layer.dLo layer.dHi (biasAt layer.bias c) with
        | none => []
        | some .skipped => [⟨"no-wrap-z3", .informational, .skipped,
            "Z3 gave up on channel " ++ toString c, "z3", none⟩]
        | some v =>
          if decide (v = .refuted) ≠ expectWrap then
            [⟨"internal-inconsistency", .soundness, .refuted,
              "closed form and the Z3 two's-complement encoding disagree on channel " ++ toString c ++
                " (closed form says wrap=" ++ pyBool expectWrap ++ ", Z3 says wrap=" ++
                pyBool (decide (v = .refuted)) ++ ")", "z3", none⟩]
          else check cs

def method (layer : Layer) : String :=
  if layer.isConv && layer.geometry.any Geometry.padded then "closed-form bounds"
  else "closed-form vertex bounds (exact)"

def provedDetail (layer : Layer) (worstLo worstHi : Int) : String :=
  "every accumulator lies in [" ++ toString worstLo ++ ", " ++ toString worstHi ++ "] (int32 is [" ++
    toString INT32_MIN ++ ", " ++ toString INT32_MAX ++ "]; " ++ toString (layer.wq.getD 0 []).length ++
    " taps/channel, " ++ toString layer.wq.length ++ " channels, head-room " ++
    toString (INT32_MAX - max worstHi (-worstLo)) ++ ")"

def skippedDetail (val : Int) : String :=
  "the bound " ++ toString val ++ " exceeds int32, but with padding it is only an upper bound and its " ++
    "attainability could not be confirmed for this input geometry"

def refutedDetail (c : Nat) (val : Int) (maximise : Bool) : String :=
  "channel " ++ toString c ++ " reaches an accumulator of " ++ toString val ++ " (> int32 " ++
    (if maximise then "max" else "min") ++ "); the kernel wraps it to " ++
    toString ((val - INT32_MIN) % 2 ^ 32 + INT32_MIN)

def exceeded (solve : Solver) (z3MaxK : Nat) (layer : Layer) (maximise : Bool) (c : Nat) (val : Int)
    (attained : Bool) : List Finding :=
  if ¬attained then [⟨"no-wrap", .soundness, .skipped, skippedDetail val, method layer, none⟩]
  else
    let d := vertexInput (layer.wq.getD c []) layer.dLo layer.dHi maximise
    let cex := if layer.isConv then convCounterexample layer d c else matmulCounterexample layer d
    ⟨"no-wrap", .soundness, .refuted, refutedDetail c val maximise, method layer, some cex⟩ ::
      z3CrossCheck solve layer c c z3MaxK true

/-- `_no_wrap_findings`; without a channel `max` raises. -/
def noWrapFindings (solve : Solver) (z3MaxK : Nat) (layer : Layer) : Option (List Finding) := do
  let ranges := channelRanges layer
  let (cHi, worstHi) ← argmax (ranges.map ChannelRange.max)
  let (cLo, worstLo) ← argmin (ranges.map ChannelRange.min)
  let overHi : Bool := INT32_MAX < worstHi
  let underLo : Bool := worstLo < INT32_MIN
  if ¬overHi ∧ ¬underLo then
    some (⟨"no-wrap", .soundness, .proved, provedDetail layer worstLo worstHi, method layer, none⟩ ::
      z3CrossCheck solve layer cHi cLo z3MaxK false)
  else if overHi then
    some (exceeded solve z3MaxK layer true cHi worstHi ((ranges[cHi]?).any ChannelRange.maxAttained))
  else
    some (exceeded solve z3MaxK layer false cLo worstLo ((ranges[cLo]?).any ChannelRange.minAttained))

end Onnxsim.QuantInt.NoWrap
