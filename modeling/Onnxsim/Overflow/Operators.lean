import Mathlib.Data.List.Flatten
import Mathlib.Data.List.Nodup
import Mathlib.Data.Rat.Floor

namespace Onnxsim.Overflow.Arrays

open List Option

variable {α β : Type}

/-- An array in row-major order. -/
structure NDArray (α : Type) where
  shape : List Nat
  data : List α
  length_data : data.length = shape.prod
deriving DecidableEq

/-- The place of an index in the data; none when it is out of range. -/
def offset : List Nat → List Nat → Option Nat
  | [], [] => some 0
  | n :: shape, i :: idx => if i < n then (offset shape idx).map fun k => i * shape.prod + k else none
  | _, _ => none

def indices : List Nat → List (List Nat)
  | [] => [[]]
  | n :: shape => (List.range n).flatMap fun i => (indices shape).map fun idx => i :: idx

/-- The index of the element that broadcasting reads at `idx`. -/
def alignIndex (shape idx : List Nat) : List Nat :=
  List.zipWith (fun n i => if n = 1 then 0 else i) shape (idx.drop (idx.length - shape.length))

theorem length_indices (shape : List Nat) : (indices shape).length = shape.prod := by
  induction shape with
  | nil => rfl
  | cons n shape ih =>
    rw [indices, length_flatMap, prod_cons]
    simp [ih]

theorem flatMap_range_mul (n m : Nat) :
    ((List.range n).flatMap fun i => (List.range m).map fun k => i * m + k) = List.range (n * m) := by
  induction n with
  | zero => simp
  | succ n ih => rw [range_succ, flatMap_append, ih, Nat.succ_mul, range_add, flatMap_singleton]

theorem map_offset_indices (shape : List Nat) : (indices shape).map (offset shape) = (List.range shape.prod).map some := by
  induction shape with
  | nil => rfl
  | cons n shape ih =>
    rw [indices, prod_cons, ← flatMap_range_mul, map_flatMap, map_flatMap]
    apply flatMap_congr
    intro i hi
    have hstep : ∀ idx, offset (n :: shape) (i :: idx) = (offset shape idx).map fun k => i * shape.prod + k :=
      fun idx => by rw [offset, if_pos (mem_range.mp hi)]
    rw [List.map_map, List.map_map]
    have hcomp : (offset (n :: shape) ∘ fun idx => i :: idx) =
        (fun o => Option.map (fun k => i * shape.prod + k) o) ∘ offset shape := funext hstep
    rw [hcomp, ← List.map_map, ih, List.map_map]
    rfl

variable {idx shape s idx' : List Nat} {n : Nat}

theorem mem_indices_cons {i : Nat} : i :: idx ∈ indices (n :: shape) ↔ i < n ∧ idx ∈ indices shape := by
  simp [indices]

theorem exists_of_mem_indices_cons (h : idx ∈ indices (n :: shape)) :
    ∃ i rest, idx = i :: rest ∧ i < n ∧ rest ∈ indices shape := by
  obtain ⟨i, hi, h⟩ := mem_flatMap.mp h
  obtain ⟨rest, hrest, rfl⟩ := List.mem_map.mp h
  exact ⟨i, rest, rfl, mem_range.mp hi, hrest⟩

theorem length_of_mem_indices (h : idx ∈ indices s) : idx.length = s.length := by
  induction s generalizing idx with
  | nil => rw [mem_singleton.mp h]
  | cons n s ih =>
    obtain ⟨i, rest, rfl, -, hrest⟩ := exists_of_mem_indices_cons h
    rw [length_cons, length_cons, ih hrest]

theorem append_mem_indices {s' : List Nat} (h : idx ∈ indices s) (h' : idx' ∈ indices s') :
    idx ++ idx' ∈ indices (s ++ s') := by
  induction s generalizing idx with
  | nil =>
    cases mem_singleton.mp h
    exact h'
  | cons n s ih =>
    obtain ⟨i, rest, rfl, hi, hrest⟩ := exists_of_mem_indices_cons h
    exact mem_indices_cons.mpr ⟨hi, ih hrest⟩

theorem offset_of_mem_indices (h : idx ∈ indices shape) : ∃ k < shape.prod, offset shape idx = some k := by
  have hmem : offset shape idx ∈ (indices shape).map (offset shape) := List.mem_map_of_mem h
  rw [map_offset_indices] at hmem
  obtain ⟨k, hk, heq⟩ := List.mem_map.mp hmem
  exact ⟨k, mem_range.mp hk, heq.symm⟩

theorem nodup_offsets (shape : List Nat) : ((indices shape).map (offset shape)).Nodup := by
  rw [map_offset_indices]
  exact nodup_range.map fun _ _ h => Option.some.inj h

theorem nodup_indices (shape : List Nat) : (indices shape).Nodup := (nodup_offsets shape).of_map _

theorem offset_inj (h : idx ∈ indices shape) (h' : idx' ∈ indices shape) (heq : offset shape idx = offset shape idx') :
    idx = idx' :=
  inj_on_of_nodup_map (nodup_offsets shape) h h' heq

theorem alignIndex_self (h : idx ∈ indices shape) : alignIndex shape idx = idx := by
  have hlt : ∀ (shape idx : List Nat), idx ∈ indices shape →
      idx.length = shape.length ∧ List.zipWith (fun n i => if n = 1 then 0 else i) shape idx = idx := by
    intro shape
    induction shape with
    | nil =>
      intro idx h
      cases mem_singleton.mp h
      exact ⟨rfl, rfl⟩
    | cons n shape ih =>
      intro idx h
      obtain ⟨i, hi, h⟩ := mem_flatMap.mp h
      obtain ⟨rest, hrest, rfl⟩ := List.mem_map.mp h
      obtain ⟨hlen, hzip⟩ := ih rest hrest
      refine ⟨by rw [length_cons, length_cons, hlen], ?_⟩
      rw [zipWith_cons_cons, hzip]
      by_cases hn : n = 1
      · have hi0 : i = 0 := by
          have := mem_range.mp hi
          omega
        rw [if_pos hn, hi0]
      · rw [if_neg hn]
  obtain ⟨hlen, hzip⟩ := hlt shape idx h
  rw [alignIndex, hlen, Nat.sub_self, drop_zero, hzip]

namespace NDArray

def get? (a : NDArray α) (idx : List Nat) : Option α := (offset a.shape idx).bind fun k => a.data[k]?

def map (f : α → β) (a : NDArray α) : NDArray β :=
  ⟨a.shape, a.data.map f, (length_map f).trans a.length_data⟩

def ofFn (shape : List Nat) (f : List Nat → α) : NDArray α :=
  ⟨shape, (indices shape).map f, (length_map f).trans (length_indices shape)⟩

def full (shape : List Nat) (v : α) : NDArray α := ⟨shape, List.replicate shape.prod v, length_replicate⟩

/-- Broadcasting reads every element of the result from an element of `a`, or it fails. -/
def broadcastTo [Inhabited α] (shape : List Nat) (a : NDArray α) : Option (NDArray α) :=
  if (indices shape).all fun idx => (a.get? (alignIndex a.shape idx)).isSome then
    some (ofFn shape fun idx => (a.get? (alignIndex a.shape idx)).getD default)
  else none

variable {a : NDArray α} {v : α}

theorem mem_of_get? {idx : List Nat} (h : a.get? idx = some v) : v ∈ a.data := by
  obtain ⟨k, -, hk⟩ := bind_eq_some_iff.mp h
  exact mem_of_getElem? hk

theorem get?_of_mem_indices {idx : List Nat} (h : idx ∈ indices a.shape) : ∃ v ∈ a.data, a.get? idx = some v := by
  obtain ⟨k, hk, hoff⟩ := offset_of_mem_indices h
  rw [← a.length_data] at hk
  have hget : a.get? idx = some a.data[k] := by
    rw [get?, hoff, bind_some, getElem?_eq_getElem]
  exact ⟨_, mem_of_get? hget, hget⟩

theorem get?_ofFn {shape idx : List Nat} (f : List Nat → α) (h : idx ∈ indices shape) :
    (ofFn shape f).get? idx = some (f idx) := by
  obtain ⟨k, hk, hoff⟩ := offset_of_mem_indices h
  have hplace : ((indices shape).map (offset shape))[k]? = some (some k) := by
    rw [map_offset_indices]
    simp [hk]
  rw [getElem?_map] at hplace
  obtain ⟨idx', hidx', hoff'⟩ := map_eq_some_iff.mp hplace
  have hsame : idx' = idx := offset_inj (mem_of_getElem? hidx') h (hoff'.trans hoff.symm)
  rw [get?, ofFn, hoff, bind_some, getElem?_map, hidx', hsame, map_some]

theorem mem_ofFn {shape : List Nat} {f : List Nat → α} :
    v ∈ (ofFn shape f).data ↔ ∃ idx ∈ indices shape, f idx = v := List.mem_map

theorem mem_broadcastTo [Inhabited α] {shape : List Nat} {b : NDArray α} (h : a.broadcastTo shape = some b) :
    b.shape = shape ∧ ∀ v ∈ b.data, v ∈ a.data := by
  rw [broadcastTo] at h
  split at h
  · next hall =>
    cases h
    refine ⟨rfl, fun v hv => ?_⟩
    obtain ⟨idx, hidx, rfl⟩ := mem_ofFn.mp hv
    obtain ⟨w, hw⟩ := isSome_iff_exists.mp (List.all_eq_true.mp hall idx hidx)
    rw [hw, getD_some]
    exact mem_of_get? hw
  · cases h

theorem broadcastTo_self [Inhabited α] (a : NDArray α) : a.broadcastTo a.shape = some a := by
  have hread : ∀ idx ∈ indices a.shape, ∃ k < a.shape.prod, offset a.shape idx = some k := fun _ =>
    offset_of_mem_indices
  have hall : ((indices a.shape).all fun idx => (a.get? (alignIndex a.shape idx)).isSome) = true := by
    rw [List.all_eq_true]
    intro idx hidx
    obtain ⟨k, hk, heq⟩ := hread idx hidx
    rw [alignIndex_self hidx, get?, heq, bind_some, getElem?_eq_getElem (by rw [a.length_data]; exact hk)]
    rfl
  have hdata : ((indices a.shape).map fun idx => (a.get? (alignIndex a.shape idx)).getD default) = a.data := by
    have hcongr : ((indices a.shape).map fun idx => (a.get? (alignIndex a.shape idx)).getD default) =
        ((indices a.shape).map (offset a.shape)).map fun o => (o.bind fun k => a.data[k]?).getD default := by
      rw [List.map_map]
      apply map_congr_left
      intro idx hidx
      rw [alignIndex_self hidx, get?, Function.comp_apply]
    rw [hcongr, map_offset_indices, List.map_map, ← a.length_data]
    apply ext_getElem (by simp)
    intro k h₁ h₂
    simp [h₂]
  rw [broadcastTo, if_pos hall]
  obtain ⟨shape, data, hlen⟩ := a
  simp only [ofFn, hdata]

theorem get?_map (f : α → β) (a : NDArray α) (idx : List Nat) : (a.map f).get? idx = (a.get? idx).map f := by
  rw [get?, get?, map, Option.map_bind]
  congr 1
  funext k
  exact getElem?_map ..

end NDArray

def readAt {α : Type} [Inhabited α] (a : NDArray α) (idx : List Nat) : α := (a.get? idx).getD default

end Onnxsim.Overflow.Arrays

namespace Onnxsim.Overflow.Operators

open Arrays

inductive DataType where
  | undefined
  | float
  | uint8
  | int8
  | uint16
  | int16
  | int32
  | int64
  | string
  | bool
  | float16
  | double
  | uint32
  | uint64
  | complex64
  | complex128
  | bfloat16
  | float8e4m3fn
  | float8e4m3fnuz
  | float8e5m2
  | float8e5m2fnuz
  | uint4
  | int4
  | float4e2m1
deriving DecidableEq, Repr

def native : DataType → Option (Int × Int)
  | .int8 => some (-128, 127)
  | .uint8 => some (0, 255)
  | .int16 => some (-32768, 32767)
  | .uint16 => some (0, 65535)
  | .int32 => some (-2147483648, 2147483647)
  | .uint32 => some (0, 4294967295)
  | .int64 => some (-9223372036854775808, 9223372036854775807)
  | .uint64 => some (0, 18446744073709551615)
  | _ => none

def integerRange : DataType → Option (Int × Int)
  | .uint4 => some (0, 15)
  | .int4 => some (-8, 7)
  | t => native t

inductive AutoPad where
  | notset
  | valid
  | sameUpper
  | sameLower
deriving DecidableEq

structure Attrs where
  castTo : Option DataType
  alpha : Option ℚ
  beta : Option ℚ
  transA : Option Int
  transB : Option Int
  group : Option Nat
  autoPad : Option AutoPad
  strides : List Nat
  dilations : List Nat
  pads : List Int

def noAttrs : Attrs := ⟨none, none, none, none, none, none, none, [], [], []⟩

/-- An omitted input or output is the empty name. -/
structure Node where
  name : String
  opType : String
  inputs : List String
  outputs : List String
  attrs : Attrs

inductive Accumulating where
  | matMul
  | gemm
  | conv
  | matMulInteger
  | convInteger
  | qLinearMatMul
  | qLinearConv
deriving DecidableEq

def accumulating : String → Option Accumulating
  | "MatMul" => some .matMul
  | "Gemm" => some .gemm
  | "Conv" => some .conv
  | "MatMulInteger" => some .matMulInteger
  | "ConvInteger" => some .convInteger
  | "QLinearMatMul" => some .qLinearMatMul
  | "QLinearConv" => some .qLinearConv
  | _ => none

def Accumulating.isInteger : Accumulating → Bool
  | .matMul | .gemm | .conv => false
  | _ => true

def Accumulating.isConv : Accumulating → Bool
  | .conv | .convInteger | .qLinearConv => true
  | _ => false

/-- Which inputs are the activation, its zero point, the weight, its zero point and the bias. -/
structure Operands where
  activation : Nat
  activationZero : Option Nat
  weight : Nat
  weightZero : Option Nat
  bias : Option Nat

def operands : Accumulating → Operands
  | .matMul => ⟨0, none, 1, none, none⟩
  | .gemm => ⟨0, none, 1, none, some 2⟩
  | .conv => ⟨0, none, 1, none, some 2⟩
  | .matMulInteger => ⟨0, some 2, 1, some 3, none⟩
  | .convInteger => ⟨0, some 2, 1, some 3, none⟩
  | .qLinearMatMul => ⟨0, some 2, 3, some 5, none⟩
  | .qLinearConv => ⟨0, some 2, 3, some 5, some 8⟩

abbrev Tensor := NDArray ℚ

/-- The products that are summed into one element, one for each place of the reduction at which both
operands have an element. -/
def products {κ : Type} (zx zw : ℚ) (ks : List κ) (x w : κ → Option ℚ) : List ℚ :=
  ks.filterMap fun k => (x k).bind fun a => (w k).map fun b => (a - zx) * (b - zw)

/-- The zero point of a row, a column or a channel: one for all, one for each, or broadcast. -/
def zeroPoint (z : Option Tensor) (i : Nat) (idx : List Nat) : ℚ :=
  match z with
  | none => 0
  | some z =>
    if z.data.length = 1 then z.data.headD 0
    else if z.shape.length = 1 then z.data.getD i 0
    else (z.get? (alignIndex z.shape idx)).getD 0

/-- How an index of the product splits into batch, row and column; a vector has none of the last two. -/
structure MatIndex where
  batch : List Nat
  row : Nat
  col : Nat

def matIndex (xShape wShape idx : List Nat) : MatIndex :=
  let tail := (if xShape.length = 1 then 0 else 1) + (if wShape.length = 1 then 0 else 1)
  let rest := idx.drop (idx.length - tail)
  ⟨idx.take (idx.length - tail), rest.headD 0, rest.getLastD 0⟩

def leftIndex (shape : List Nat) (at' : MatIndex) (k : Nat) : List Nat :=
  if shape.length = 1 then [k] else alignIndex shape.dropLast.dropLast at'.batch ++ [at'.row, k]

def rightIndex (shape : List Nat) (at' : MatIndex) (k : Nat) : List Nat :=
  if shape.length = 1 then [k] else alignIndex shape.dropLast.dropLast at'.batch ++ [k, at'.col]

def matMulProducts (x w : Tensor) (zx zw : Option Tensor) (idx : List Nat) : List ℚ :=
  let at' := matIndex x.shape w.shape idx
  products (zeroPoint zx at'.row (at'.batch ++ [at'.row, 0])) (zeroPoint zw at'.col (at'.batch ++ [0, at'.col]))
    (List.range (x.shape.getLastD 0)) (fun k => x.get? (leftIndex x.shape at' k))
    fun k => w.get? (rightIndex w.shape at' k)

/-- The longer of two batch shapes, each size the larger one of those aligned with it. -/
def broadcastBatch (a b : List Nat) : List Nat :=
  let n := max a.length b.length
  List.zipWith (fun p q => if p = 1 then q else p) (List.replicate (n - a.length) 1 ++ a)
    (List.replicate (n - b.length) 1 ++ b)

def matMulShape (xShape wShape : List Nat) : List Nat :=
  broadcastBatch xShape.dropLast.dropLast wShape.dropLast.dropLast ++
    (if xShape.length = 1 then [] else [xShape.dropLast.getLastD 0]) ++
    (if wShape.length = 1 then [] else [wShape.getLastD 0])

def isSet (attr : Option Int) : Bool := attr.getD 0 ≠ 0

def gemmProducts (attrs : Attrs) (x w : Tensor) (c : Option Tensor) (idx : List Nat) : List ℚ :=
  let m := idx.headD 0
  let n := idx.getLastD 0
  let depth := if isSet attrs.transA then x.shape.getD 0 0 else x.shape.getD 1 0
  let dot := products 0 0 (List.range depth)
    (fun k => x.get? (if isSet attrs.transA then [k, m] else [m, k]))
    (fun k => w.get? (if isSet attrs.transB then [n, k] else [k, n]))
  let bias := (c.bind fun c => c.get? (alignIndex c.shape [m, n])).toList
  dot.map (fun p => attrs.alpha.getD 1 * p) ++ bias.map fun b => attrs.beta.getD 1 * b

variable (attrs : Attrs)

def stride (i : Nat) : Nat := attrs.strides.getD i 1

def dilation (i : Nat) : Nat := attrs.dilations.getD i 1

def extent (kernel i : Nat) : Int := ((kernel : Int) - 1) * dilation attrs i + 1

def samePads (input kernel i : Nat) : Int :=
  max 0 ((((input + stride attrs i - 1) / stride attrs i : Nat) - 1 : Int) * stride attrs i +
    extent attrs kernel i - input)

def padBegin (input kernel i : Nat) : Int :=
  match attrs.autoPad.getD .notset with
  | .notset => attrs.pads.getD i 0
  | .valid => 0
  | .sameUpper => samePads attrs input kernel i / 2
  | .sameLower => samePads attrs input kernel i - samePads attrs input kernel i / 2

def outSize (rank input kernel i : Nat) : Nat :=
  match attrs.autoPad.getD .notset with
  | .notset => ((input + attrs.pads.getD i 0 + attrs.pads.getD (rank + i) 0 - extent attrs kernel i) /
      stride attrs i + 1).toNat
  | .valid => ((input - extent attrs kernel i) / stride attrs i + 1).toNat
  | .sameUpper | .sameLower => (input + stride attrs i - 1) / stride attrs i

/-- Where the input is read along axis `i`; none in the padding. -/
def inputPosition (input kernel i p k : Nat) : Option Nat :=
  let pos : Int := p * stride attrs i + k * dilation attrs i - padBegin attrs input kernel i
  if 0 ≤ pos ∧ pos < input then some pos.toNat else none

def inputPositions : Nat → List Nat → List Nat → List Nat → List Nat → Option (List Nat)
  | _, [], [], [], [] => some []
  | i, input :: inputs, kernel :: kernels, p :: ps, k :: ks => do
    let pos ← inputPosition attrs input kernel i p k
    let rest ← inputPositions (i + 1) inputs kernels ps ks
    some (pos :: rest)
  | _, _, _, _, _ => none

/-- The element of the input that the kernel element `c :: k` of the channel `oc` meets. -/
def convInput (x w : Tensor) (idx : List Nat) (ck : List Nat) : Option ℚ :=
  match idx, ck with
  | n :: oc :: ps, c :: ks => do
    let perGroup := w.shape.headD 0 / attrs.group.getD 1
    let pos ← inputPositions attrs 0 (x.shape.drop 2) (w.shape.drop 2) ps ks
    x.get? (n :: (oc / perGroup * (w.shape.drop 1).headD 0 + c) :: pos)
  | _, _ => none

/-- Padding adds nothing; a zero point is taken off before it is put in. -/
def convProducts (x w : Tensor) (zx zw bias : Option Tensor) (idx : List Nat) : List ℚ :=
  let oc := (idx.drop 1).headD 0
  products (zeroPoint zx 0 []) (zeroPoint zw oc [oc, 0]) (indices (w.shape.drop 1)) (convInput attrs x w idx)
    (fun ck => w.get? (oc :: ck)) ++
  (bias.bind fun b => b.get? [oc]).toList

def convShape (xShape wShape : List Nat) : List Nat :=
  xShape.headD 0 :: wShape.headD 0 ::
    ((xShape.drop 2).zip (wShape.drop 2)).zipIdx.map fun e =>
      outSize attrs (xShape.drop 2).length e.1.1 e.1.2 e.2

def operand (ins : List (Option Tensor)) (i : Nat) : Option Tensor := (ins[i]?).join

def operandOf (ins : List (Option Tensor)) (i : Option Nat) : Option Tensor := i.bind (operand ins)

/-- What is summed into the element `idx` of the output. -/
def terms (acc : Accumulating) (attrs : Attrs) (ins : List (Option Tensor)) (idx : List Nat) : List ℚ :=
  let o := operands acc
  match operand ins o.activation, operand ins o.weight with
  | some x, some w =>
    match acc with
    | .gemm => gemmProducts attrs x w (operandOf ins o.bias) idx
    | .conv | .convInteger | .qLinearConv =>
      convProducts attrs x w (operandOf ins o.activationZero) (operandOf ins o.weightZero) (operandOf ins o.bias)
        idx
    | .matMul | .matMulInteger | .qLinearMatMul =>
      matMulProducts x w (operandOf ins o.activationZero) (operandOf ins o.weightZero) idx
  | _, _ => []

def sumShape (acc : Accumulating) (attrs : Attrs) (ins : List (Option Tensor)) : List Nat :=
  let o := operands acc
  match operand ins o.activation, operand ins o.weight with
  | some x, some w => if acc.isConv then convShape attrs x.shape w.shape else matMulShape x.shape w.shape
  | _, _ => []

def trunc (q : ℚ) : Int := if 0 ≤ q then ⌊q⌋ else ⌈q⌉

/-- What a node computes, over the integers and without wrapping; `other` are the operators that the
certificate does not treat on its own. -/
def eval (other : Node → List (Option Tensor) → List Tensor) (node : Node) (ins : List (Option Tensor)) :
    List Tensor :=
  if node.opType = "Cast" ∧ (integerRange (node.attrs.castTo.getD .undefined)).isSome then
    (operand ins 0).toList.map fun x => x.map fun q => (trunc q : ℚ)
  else
    match accumulating node.opType with
    | some .matMulInteger =>
      [NDArray.ofFn (sumShape .matMulInteger node.attrs ins) fun idx => (terms .matMulInteger node.attrs ins idx).sum]
    | some .convInteger =>
      [NDArray.ofFn (sumShape .convInteger node.attrs ins) fun idx => (terms .convInteger node.attrs ins idx).sum]
    | _ => other node ins

end Onnxsim.Overflow.Operators
