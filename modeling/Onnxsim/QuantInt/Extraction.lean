import Onnxsim.Lib.Binary
import Onnxsim.Lib.Results
import Onnxsim.QuantInt.NoWrap

namespace Onnxsim.QuantInt.Accumulators

open List Overflow.Arrays Layers NoWrap

/-- What an integer node computes on its activations: its constants, and how it reads them. -/
structure Operation where
  isConv : Bool
  w : Const
  zp : Option Const
  za : Int
  bias : Option Const
  attrs : ConvAttrs

/-- An output position: a row of the activations and a column, or a batch, a channel and a place. -/
inductive Output where
  | matmul (row : List Nat) (n : Nat)
  | conv (b co oy ox : Nat)

def zeroPointAt (zp : Option Const) (c : Nat) : Int :=
  match zp with
  | none => 0
  | some z => if z.size = 1 then z.array.data.getD 0 0 else z.array.data.getD c 0

variable (op : Operation)

def Operation.weight (c : Nat) (idx : List Nat) : Int := entry op.w.array idx - zeroPointAt op.zp c

/-- What a convolution reads at a tap: an activation less its zero point, or nothing in the padding. -/
def Operation.tap (x : NDArray Int) (b co oy ox : Nat) (t : List Nat) : Int :=
  let cout := op.w.array.shape.getD 0 0
  let cg := op.w.array.shape.getD 1 0
  let c := co / (cout / op.attrs.group) * cg + t.getD 0 0
  let y : Int := oy * op.attrs.strides.1 - op.attrs.pads.1 + t.getD 1 0 * op.attrs.dilations.1
  let z : Int := ox * op.attrs.strides.2 - op.attrs.pads.2.1 + t.getD 2 0 * op.attrs.dilations.2
  if 0 ≤ y ∧ y < x.shape.getD 2 0 ∧ 0 ≤ z ∧ z < x.shape.getD 3 0 then
    entry x [b, c, y.toNat, z.toNat] - op.za
  else 0

def Operation.terms (x : NDArray Int) : Output → List Int
  | .matmul row n =>
    (List.range (op.w.array.shape.getD 0 0)).map fun r => (entry x (row ++ [r]) - op.za) * op.weight n [r, n]
  | .conv b co oy ox =>
    (op.bias.elim 0 fun c => c.array.data.getD co 0) ::
      (indices (op.w.array.shape.drop 1)).map fun t => op.tap x b co oy ox t * op.weight co (co :: t)

def Window (o stride pad pad' dilation kernel size : Nat) : Prop :=
  o * stride + dilation * (kernel - 1) + 1 ≤ size + pad + pad'

/-- The activations have the shape that the node asks for, and the output is one of its outputs. -/
def Operation.Valid (x : NDArray Int) : Output → Prop
  | .matmul row n => op.isConv = false ∧
    ∃ pre k cols, op.w.array.shape = [k, cols] ∧ x.shape = pre ++ [k] ∧ row ∈ indices pre ∧ n < cols
  | .conv b co oy ox => op.isConv = true ∧
    ∃ batch h w cout cg kh kw, op.w.array.shape = [cout, cg, kh, kw] ∧
      x.shape = [batch, cg * op.attrs.group, h, w] ∧ b < batch ∧ co < cout ∧
      Window oy op.attrs.strides.1 op.attrs.pads.1 op.attrs.pads.2.2.1 op.attrs.dilations.1 kh h ∧
      Window ox op.attrs.strides.2 op.attrs.pads.2.1 op.attrs.pads.2.2.2 op.attrs.dilations.2 kw w

/-- What ONNX asks of a convolution: one zero point or one for each channel, a bias for each channel, groups of
equal size and a kernel that is not empty. -/
structure Operation.WellFormed : Prop where
  zp : ∀ cout cg kh kw, op.isConv = true → op.w.array.shape = [cout, cg, kh, kw] →
    ∀ z ∈ op.zp, z.size = 1 ∨ (z.ndim = 1 ∧ z.size = cout)
  bias : ∀ cout cg kh kw, op.isConv = true → op.w.array.shape = [cout, cg, kh, kw] →
    ∀ b ∈ op.bias, b.array.data.length = cout
  groups : ∀ cout cg kh kw, op.isConv = true → op.w.array.shape = [cout, cg, kh, kw] → op.attrs.group ∣ cout
  kernel : ∀ cout cg kh kw, op.isConv = true → op.w.array.shape = [cout, cg, kh, kw] → 0 < kh ∧ 0 < kw

def optionalConst (consts : String → Option Const) (name : String) : Option (Option Const) :=
  if name = "" then some none else (consts name).map some

def operationOf (consts : String → Option Const) (node : Node) : Option Operation :=
  match readInputs node with
  | .error _ => none
  | .ok ins => do
    let w ← consts ins.w
    let zp ← optionalConst consts ins.wzp
    let azp ← optionalConst consts ins.azp
    let bias ← optionalConst consts ins.bias
    some ⟨isConvOp node.opType, w, zp, azp.elim 0 fun z => z.array.data.headD 0, bias, node.attrs⟩

/-- A code of the activations' type in the range that they are said to take. -/
def InRange (dtype : Nat) (actRange : Option (Int × Int)) (v : Int) : Prop :=
  (∃ lo hi, intRanges dtype = some (lo, hi) ∧ lo ≤ v ∧ v ≤ hi) ∧ ∀ r ∈ actRange, r.1 ≤ v ∧ v ≤ r.2

def FitsInt32 (v : Int) : Prop := INT32_MIN ≤ v ∧ v ≤ INT32_MAX

variable {lo hi : Int}

def vertexAt (lo hi : Int) (maximise : Bool) (w : Int) : Int :=
  if 0 ≤ w then (if maximise then hi else lo) else if maximise then lo else hi

theorem vertexInput_eq (w : List Int) (maximise : Bool) :
    vertexInput w lo hi maximise = w.map (vertexAt lo hi maximise) := rfl

theorem mul_le_vertex {d : Int} (hlo : lo ≤ d) (hhi : d ≤ hi) (w : Int) : d * w ≤ vertexAt lo hi true w * w := by
  rw [vertexAt]
  by_cases hw : 0 ≤ w
  · rw [if_pos hw, if_pos rfl]
    exact mul_le_mul_of_nonneg_right hhi hw
  · rw [if_neg hw, if_pos rfl]
    exact mul_le_mul_of_nonpos_right hlo (by omega)

theorem vertex_le_mul {d : Int} (hlo : lo ≤ d) (hhi : d ≤ hi) (w : Int) : vertexAt lo hi false w * w ≤ d * w := by
  rw [vertexAt]
  by_cases hw : 0 ≤ w
  · rw [if_pos hw, if_neg Bool.false_ne_true]
    exact mul_le_mul_of_nonneg_right hlo hw
  · rw [if_neg hw, if_neg Bool.false_ne_true]
    exact mul_le_mul_of_nonpos_right hhi (by omega)

theorem vertex_max (hle : lo ≤ hi) (w : Int) : vertexAt lo hi true w * w = max (w * lo) (w * hi) := by
  rw [vertexAt]
  by_cases hw : 0 ≤ w
  · rw [if_pos hw, if_pos rfl, max_eq_right (mul_le_mul_of_nonneg_left hle hw), mul_comm]
  · rw [if_neg hw, if_pos rfl, max_eq_left (mul_le_mul_of_nonpos_left hle (by omega)), mul_comm]

theorem vertex_min (hle : lo ≤ hi) (w : Int) : vertexAt lo hi false w * w = min (w * lo) (w * hi) := by
  rw [vertexAt]
  by_cases hw : 0 ≤ w
  · rw [if_pos hw, if_neg Bool.false_ne_true, min_eq_left (mul_le_mul_of_nonneg_left hle hw), mul_comm]
  · rw [if_neg hw, if_neg Bool.false_ne_true, min_eq_right (mul_le_mul_of_nonpos_left hle (by omega)), mul_comm]

theorem vertex_eq (v : Int) (maximise : Bool) : vertexAt lo hi maximise v * v =
    (if 0 < v then v else 0) * (if maximise then hi else lo) -
      (if v < 0 then -v else 0) * if maximise then lo else hi := by
  rw [vertexAt]
  rcases lt_trichotomy v 0 with hv | hv | hv
  · rw [if_neg (not_le.mpr hv), if_neg (not_lt.mpr hv.le), if_pos hv]
    ring
  · subst hv
    simp
  · rw [if_pos hv.le, if_pos hv, if_neg (not_lt.mpr hv.le)]
    ring

theorem sum_positive (w : List Int) :
    (w.filter fun v => 0 < v).sum = (w.map fun v => if 0 < v then v else 0).sum := by
  induction w with
  | nil => rfl
  | cons v w ih =>
    by_cases hv : 0 < v
    · simp [hv, ih]
    · simp [hv, ih]

theorem sum_negative (w : List Int) :
    ((w.filter fun v => v < 0).map fun v => -v).sum = (w.map fun v => if v < 0 then -v else 0).sum := by
  induction w with
  | nil => rfl
  | cons v w ih =>
    by_cases hv : v < 0
    · simp [hv, ih]
    · simp [hv, ih]

theorem sum_vertex (w : List Int) (maximise : Bool) : (w.map fun v => vertexAt lo hi maximise v * v).sum =
    (w.filter fun v => 0 < v).sum * (if maximise then hi else lo) -
      ((w.filter fun v => v < 0).map fun v => -v).sum * if maximise then lo else hi := by
  rw [sum_positive, sum_negative]
  induction w with
  | nil => simp
  | cons v w ih =>
    rw [map_cons, map_cons, map_cons, sum_cons, sum_cons, sum_cons, ih, vertex_eq]
    ring

theorem accumulatorRange_eq (w : List Int) (bias : Int) : accumulatorRange w lo hi bias =
    (bias + (w.map fun v => vertexAt lo hi false v * v).sum,
      bias + (w.map fun v => vertexAt lo hi true v * v).sum) := by
  rw [sum_vertex, sum_vertex, accumulatorRange]
  simp only [if_true, Bool.false_eq_true, if_false, add_sub_assoc]

end Onnxsim.QuantInt.Accumulators

namespace Onnxsim.QuantInt.Extraction

open List Option Lib.Results Overflow.Arrays Layers NoWrap
open Accumulators

/-- What a layer holds of the operation that it was extracted from. -/
structure Extracts (op : Operation) (xShape : Option (List Nat)) (actRange : Option (Int × Int))
    (layer : Layer) : Prop where
  codes : ∀ v, InRange layer.aDtype actRange v ↔ layer.dLo ≤ v - op.za ∧ v - op.za ≤ layer.dHi
  za : layer.za = op.za
  isConv : layer.isConv = op.isConv
  attrs : layer.convAttrs = op.attrs
  wshape : layer.wshape = op.w.array.shape
  matmul : op.isConv = false → ∃ k n, op.w.array.shape = [k, n] ∧ layer.bias = List.replicate n 0 ∧
    layer.wq = (List.range n).map fun c => (List.range k).map fun r => op.weight c [r, c]
  conv : op.isConv = true → ∃ cout cg kh kw, op.w.array.shape = [cout, cg, kh, kw] ∧
    layer.geometry = some (convGeometry op.attrs kh kw xShape) ∧
    (layer.bias = op.bias.elim (List.replicate cout 0) fun b => b.array.data) ∧
    layer.wq = (List.range cout).map fun co => (indices [cg, kh, kw]).map fun t => op.weight co (co :: t)

variable {w : Const} {zp : Option Const}

theorem matmulRows_eq {k n : Nat} (hzp : zp.all (fun z => (z.ndim = 1 ∧ z.size = n) ∨ z.size = 1) = true) :
    matmulRows w.array zp k n =
      (List.range n).map fun c => (List.range k).map fun r => entry w.array [r, c] - zeroPointAt zp c := by
  rw [matmulRows]
  apply map_congr_left
  intro c hc
  apply map_congr_left
  intro r _
  cases zp with
  | none => rfl
  | some z =>
    have hzp : (z.ndim = 1 ∧ z.size = n) ∨ z.size = 1 := of_decide_eq_true hzp
    have hc : c < n := mem_range.mp hc
    dsimp only [zeroPointAt]
    by_cases hone : z.size = 1
    · rw [if_pos hone]
      by_cases hper : z.ndim = 1 ∧ z.size = n
      · rw [if_pos hper, show c = 0 by omega]
      · rw [if_neg hper]
    · rw [if_neg hone, if_pos (hzp.resolve_right hone)]

theorem convRows_eq {cout cg kh kw : Nat} (hzp : ∀ z ∈ zp, z.size = 1 ∨ (z.ndim = 1 ∧ z.size = cout)) :
    convRows w.array zp cout cg kh kw = (List.range cout).map fun co =>
      (indices [cg, kh, kw]).map fun t => entry w.array (co :: t) - zeroPointAt zp co := by
  rw [convRows]
  apply map_congr_left
  intro co hco
  apply map_congr_left
  intro t _
  cases zp with
  | none => rfl
  | some z =>
    have hco : co < cout := mem_range.mp hco
    dsimp only [zeroPointAt]
    by_cases hper : z.ndim = 1 ∧ z.size = cout
    · rw [if_pos hper]
      by_cases hone : z.size = 1
      · rw [if_pos hone, show co = 0 by omega]
      · rw [if_neg hone]
    · have hone : z.size = 1 := (hzp z rfl).resolve_right hper
      rw [if_neg hper, if_pos hone, if_pos hone]

theorem actRangeFrom_codes {za : Int} {dtype : Nat} {actRange : Option (Int × Int)} {dLo dHi : Int} {rn : String}
    (hd : (intRanges dtype).isNone = false) (h : actRangeFrom za dtype actRange = (dLo, dHi, rn)) (v : Int) :
    InRange dtype actRange v ↔ dLo ≤ v - za ∧ v - za ≤ dHi := by
  rw [actRangeFrom] at h
  rw [InRange]
  obtain ⟨⟨lo, hi⟩, hr⟩ := isSome_iff_exists.mp (isNone_eq_false_iff.mp hd)
  rw [hr] at h ⊢
  cases actRange with
  | none =>
    cases h
    constructor
    · rintro ⟨⟨lo', hi', heq, hlo, hhi⟩, -⟩
      cases heq
      constructor <;> omega
    · rintro ⟨hlo, hhi⟩
      exact ⟨⟨lo, hi, rfl, by omega, by omega⟩, by simp⟩
  | some r =>
    cases h
    constructor
    · rintro ⟨⟨lo', hi', heq, hlo, hhi⟩, hr⟩
      cases heq
      have hr := hr r rfl
      constructor <;> omega
    · rintro ⟨hlo, hhi⟩
      refine ⟨⟨lo, hi, rfl, by omega, by omega⟩, ?_⟩
      intro r' hr'
      cases hr'
      omega

variable {node : Node} {xShape : Option (List Nat)} {wq : List (List Int)} {geometry : Option Geometry}

theorem weightRows_matmul (hconv : isConvOp node.opType = false)
    (h : weightRows node w zp xShape = .ok (wq, geometry)) : ∃ k n, w.array.shape = [k, n] ∧
      wq = (List.range n).map fun c => (List.range k).map fun r => entry w.array [r, c] - zeroPointAt zp c := by
  rw [weightRows, hconv, if_neg Bool.false_ne_true] at h
  split at h
  · next k n hshape =>
    split at h
    · next hzp =>
      cases h
      exact ⟨k, n, hshape, matmulRows_eq hzp⟩
    · cases h
  · cases h

theorem weightRows_conv (hconv : isConvOp node.opType = true)
    (hzp : ∀ cout cg kh kw, w.array.shape = [cout, cg, kh, kw] →
      ∀ z ∈ zp, z.size = 1 ∨ (z.ndim = 1 ∧ z.size = cout))
    (h : weightRows node w zp xShape = .ok (wq, geometry)) :
    ∃ cout cg kh kw, w.array.shape = [cout, cg, kh, kw] ∧ geometry = some (convGeometry node.attrs kh kw xShape) ∧
      wq = (List.range cout).map fun co =>
        (indices [cg, kh, kw]).map fun t => entry w.array (co :: t) - zeroPointAt zp co := by
  rw [weightRows, if_pos hconv] at h
  split at h
  · next cout cg kh kw hshape =>
    split at h
    · cases h
    · cases h
      exact ⟨cout, cg, kh, kw, hshape, rfl, convRows_eq (hzp cout cg kh kw hshape)⟩
  · cases h

variable {consts : String → Option Const} {elemTypes : String → Option Nat} {shapes : String → Option (List Nat)}
  {actRange : Option (Int × Int)} {op : Operation} {layer : Layer}

theorem bias_of_not_conv {ins : Inputs} (h : readInputs node = .ok ins) (hconv : isConvOp node.opType = false) :
    ins.bias = "" := by
  have hq : node.opType ≠ "QLinearConv" := by
    intro heq
    rw [heq] at hconv
    cases hconv
  rw [readInputs] at h
  split at h
  · cases h
    rfl
  · split at h
    · cases h
      dsimp only
    · cases h

variable {name : String}

theorem activationZeroPoint_eq {za : Int} (h : activationZeroPoint consts name = .ok za) :
    ∃ z, optionalConst consts name = some z ∧ za = z.elim 0 fun z => z.array.data.headD 0 := by
  rw [activationZeroPoint] at h
  rw [optionalConst]
  split at h
  · next hname =>
    cases h
    exact ⟨none, if_pos hname, rfl⟩
  · next hname =>
    split at h
    · next v hv =>
      cases h
      rw [scalar, if_neg hname] at hv
      obtain ⟨c, hc, hv⟩ := bind_eq_some_iff.mp hv
      split at hv
      · refine ⟨some c, by rw [if_neg hname, hc, map_some], ?_⟩
        rw [elim_some, headD_eq_head?_getD, hv]
        rfl
      · cases hv
    · cases h

theorem weightZeroPoint_eq {zp : Option Const} (h : weightZeroPoint consts name = .ok zp) :
    optionalConst consts name = some zp := by
  rw [weightZeroPoint] at h
  rw [optionalConst]
  split at h
  · next hname =>
    cases h
    exact if_pos hname
  · next hname =>
    split at h
    · next c hc =>
      cases h
      rw [if_neg hname, hc, map_some]
    · cases h

theorem readBias_eq {channels : Nat} {bias : List Int} (h : readBias consts name channels = .ok bias) :
    ∃ b, optionalConst consts name = some b ∧ bias = b.elim (List.replicate channels 0) fun b => b.array.data := by
  rw [readBias] at h
  rw [optionalConst]
  split at h
  · next hname =>
    cases h
    exact ⟨none, if_pos hname, rfl⟩
  · next hname =>
    split at h
    · next c hc =>
      cases h
      exact ⟨some c, by rw [if_neg hname, hc, map_some], rfl⟩
    · cases h

theorem extracts (h : extractLayer consts node elemTypes shapes actRange = .ok layer) :
    ∃ op, operationOf consts node = some op ∧ (op.WellFormed → ∃ xShape, Extracts op xShape actRange layer) := by
  rw [extractLayer] at h
  obtain ⟨ins, hins, h⟩ := bind_eq_ok h
  split at h
  · next w hw =>
    obtain ⟨za, hza, h⟩ := bind_eq_ok h
    by_cases hdtype : (intRanges (activationDtype consts elemTypes ins.a ins.azp)).isNone = true
    · dsimp only at h
      rw [if_pos hdtype] at h
      cases h
    · dsimp only at h
      rw [if_neg hdtype] at h
      obtain ⟨zp, hzp, h⟩ := bind_eq_ok h
      obtain ⟨⟨wq, geometry⟩, hrows, h⟩ := bind_eq_ok h
      obtain ⟨bs, hbs, h⟩ := bind_eq_ok h
      obtain ⟨_, -, h⟩ := bind_eq_ok h
      cases h
      obtain ⟨azp, hazp, rfl⟩ := activationZeroPoint_eq hza
      obtain ⟨bias, hbias, rfl⟩ := readBias_eq hbs
      have hop : operationOf consts node = some ⟨isConvOp node.opType, w, zp,
          azp.elim 0 fun z => z.array.data.headD 0, bias, node.attrs⟩ := by
        rw [operationOf, hins]
        dsimp only
        rw [hw, weightZeroPoint_eq hzp, hazp, hbias]
        rfl
      refine ⟨_, hop, fun hwf => ⟨shapes ins.a, ?_, rfl, rfl, rfl, rfl, ?_, ?_⟩⟩
      · exact actRangeFrom_codes (Bool.not_eq_true _ ▸ hdtype) rfl
      · intro hconv
        obtain ⟨k, n, hshape, hwq⟩ := weightRows_matmul hconv hrows
        refine ⟨k, n, hshape, ?_, hwq⟩
        rw [bias_of_not_conv hins hconv] at hbias
        cases hbias
        rw [hwq]
        simp
      · intro hconv
        obtain ⟨cout, cg, kh, kw, hshape, hgeometry, hwq⟩ :=
          weightRows_conv hconv (fun cout cg kh kw => hwf.zp cout cg kh kw hconv) hrows
        refine ⟨cout, cg, kh, kw, hshape, hgeometry, ?_, hwq⟩
        rw [hwq]
        simp
  · cases h

end Onnxsim.QuantInt.Extraction
