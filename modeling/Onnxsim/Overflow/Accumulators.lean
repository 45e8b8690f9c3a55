import Onnxsim.Lib.Roundings
import Onnxsim.Overflow.Intervals

namespace Onnxsim.Overflow.Certificate

open Lib.OrderedMaps Arrays Operators Intervals

structure Window where
  name : String
  lo : Int
  hi : Int
deriving DecidableEq

inductive Kind where
  | tensor
  | accumulator
  | cast
deriving DecidableEq

structure OverflowFinding where
  node : String
  tensor : String
  kind : Kind
  lo : Int
  hi : Int
  requiredBits : Nat
  fits : Bool
deriving DecidableEq

structure OverflowReport where
  window : String
  findings : List OverflowFinding
  unanalysed : List String
deriving DecidableEq

def OverflowReport.violations (r : OverflowReport) : List OverflowFinding := r.findings.filter fun f => !f.fits

def OverflowReport.fits (r : OverflowReport) : Bool := r.violations.isEmpty && r.unanalysed.isEmpty

/-- A signed word of `bits` bits, or an odd field. -/
def window (bits fieldModulus : Option Int) : Except String Window :=
  match bits, fieldModulus with
  | some b, none =>
    if 2 ≤ b ∧ b ≤ 64 then .ok ⟨s!"int{b}", -2 ^ (b - 1).toNat, 2 ^ (b - 1).toNat - 1⟩
    else .error s!"bits must be in [2, 64], got {b}"
  | none, some p =>
    if p < 3 ∨ p % 2 = 0 then .error s!"field modulus must be odd and at least 3, got {p}"
    else .ok ⟨s!"F_{p}", -((p - 1) / 2), (p - 1) / 2⟩
  | _, _ => .error "pass exactly one of bits or field_modulus"

def bitLength (n : Nat) : Nat := if n = 0 then 0 else n.log2 + 1

def requiredBits (lo hi : Int) : Nat :=
  let need (v : Int) : Nat := if 0 ≤ v then bitLength v.toNat + 1 else bitLength (-v - 1).toNat + 1
  max (need lo) (need hi)

def finding (node tensor : String) (kind : Kind) (lo hi : ℚ) (w : Window) : OverflowFinding where
  node := node
  tensor := tensor
  kind := kind
  lo := ⌊lo⌋
  hi := ⌈hi⌉
  requiredBits := requiredBits ⌊lo⌋ ⌈hi⌉
  fits := w.lo ≤ ⌊lo⌋ && ⌈hi⌉ ≤ w.hi

variable (result : SortedMap String Enclosure) (consts : SortedMap String Tensor)

def hullOf (name : String) : Except String (Ext × Ext) :=
  match result.find? name with
  | none => .error s!"no interval for {name}"
  | some e => .ok e.hull

def bounded (name : String) : Except String (ℚ × ℚ) := do
  let h ← hullOf result name
  match finite? h.1, finite? h.2 with
  | some lo, some hi => .ok (lo, hi)
  | _, _ => .error s!"unbounded {name}"

def shapeOf (name : String) : Except String (List Nat) :=
  match result.find? name with
  | some (.static lo _) => .ok lo.shape
  | _ => .error s!"dynamic or unknown shape of {name}"

/-- The input of a node at an index; the empty name where there is none. -/
def inputAt (node : Node) (i : Nat) : String := node.inputs.getD i ""

def zeroPointOf (node : Node) (idx : Option Nat) : Except String ℚ :=
  match idx with
  | none => .ok 0
  | some i =>
    if inputAt node i = "" then .ok 0
    else
      match consts.find? (inputAt node i) with
      | none => .error s!"zero point {inputAt node i} is not constant"
      | some z =>
        if z.data.all fun v => v = 0 then .ok 0
        else if z.data.length ≠ 1 then .error s!"per-channel zero point {inputAt node i}"
        else .ok (z.data.headD 0)

def centeredMag (lo hi zp : ℚ) : ℚ := max |lo - zp| |hi - zp|

def maxSum (sums : List ℚ) : ℚ := sums.foldl max 0

def elementAt (a : NDArray ℚ) (idx : List Nat) : ℚ := (a.get? idx).getD 0

def rangeSum (n : Nat) (f : Nat → ℚ) : ℚ := ((List.range n).map f).sum

def columnSums (a : NDArray ℚ) : List ℚ :=
  (indices a.shape.dropLast.dropLast).flatMap fun b =>
    (List.range (a.shape.getLastD 0)).map fun n =>
      rangeSum (a.shape.dropLast.getLastD 0) fun k => elementAt a (b ++ [k, n])

def channelSums (a : NDArray ℚ) : List ℚ :=
  (List.range (a.shape.headD 0)).map fun oc =>
    ((indices (a.shape.drop 1)).map fun ck => elementAt a (oc :: ck)).sum

/-- The sums over the reduction of a matrix, given its extents and how it is read. -/
def matrixSums (depth cols : Nat) (read : Nat → Nat → ℚ) : List ℚ :=
  (List.range cols).map fun n => rangeSum depth fun k => read k n

def weightSum (acc : Accumulating) (attrs : Attrs) (a : NDArray ℚ) : ℚ :=
  match acc with
  | .gemm =>
    if isSet attrs.transB then maxSum (matrixSums (a.shape.getD 1 0) (a.shape.getD 0 0) fun k n => elementAt a [n, k])
    else maxSum (matrixSums (a.shape.getD 0 0) (a.shape.getD 1 0) fun k n => elementAt a [k, n])
  | .conv | .convInteger | .qLinearConv => maxSum (channelSums a)
  | .matMul | .matMulInteger | .qLinearMatMul =>
    if a.shape.length = 1 then a.data.sum else maxSum (columnSums a)

/-- The length of the reduction, from the shapes that are known. -/
def depthOf (acc : Accumulating) (node : Node) : Except String Nat :=
  match acc with
  | .gemm => do
    let a ← shapeOf result (inputAt node (operands acc).activation)
    .ok (if isSet node.attrs.transA then a.getD 0 0 else a.getD 1 0)
  | .conv | .convInteger | .qLinearConv => do
    let w ← shapeOf result (inputAt node (operands acc).weight)
    .ok (w.drop 1).prod
  | .matMul | .matMulInteger | .qLinearMatMul => do
    let a ← shapeOf result (inputAt node (operands acc).activation)
    .ok (a.getLastD 0)

def gemmScale (acc : Accumulating) (attr : Option ℚ) : ℚ := if acc = .gemm then |attr.getD 1| else 1

def productBound (acc : Accumulating) (node : Node) (zw mx : ℚ) : Except String ℚ :=
  let alpha := gemmScale acc node.attrs.alpha
  let w := inputAt node (operands acc).weight
  match consts.find? w with
  | some t => .ok (alpha * weightSum acc node.attrs (t.map fun v => |v - zw|) * mx)
  | none => do
    let b ← bounded result w
    let depth ← depthOf result acc node
    .ok (alpha * depth * mx * centeredMag b.1 b.2 zw)

def biasBound (acc : Accumulating) (node : Node) : Except String ℚ :=
  match (operands acc).bias with
  | none => .ok 0
  | some i =>
    if inputAt node i = "" then .ok 0
    else do
      let b ← bounded result (inputAt node i)
      .ok (gemmScale acc node.attrs.beta * max |b.1| |b.2|)

def accumulatorBound (acc : Accumulating) (node : Node) : Except String ℚ := do
  let zx ← zeroPointOf consts node (operands acc).activationZero
  let zw ← zeroPointOf consts node (operands acc).weightZero
  let x ← bounded result (inputAt node (operands acc).activation)
  let p ← productBound result consts acc node zw (centeredMag x.1 x.2 zx)
  let b ← biasBound result acc node
  .ok (p + b)

/-- What the checks of the nodes share. -/
structure Context where
  window : Window
  field : Bool
  elem : String → Option DataType
  result : SortedMap String Enclosure
  consts : SortedMap String Tensor

def isFloat (t : DataType) : Bool := t = .float || t = .float16 || t = .double || t = .bfloat16

/-- For a field every tensor, else those that are not known to hold floats. -/
def inScope (field : Bool) (elem : String → Option DataType) (name : String) : Bool :=
  field || !(elem name).any isFloat

def Context.inScope (c : Context) (name : String) : Bool := Certificate.inScope c.field c.elem name

def addUnanalysed (node reason : String) (r : OverflowReport) : OverflowReport :=
  if s!"{node}: {reason}" ∈ r.unanalysed then r
  else { r with unanalysed := r.unanalysed ++ [s!"{node}: {reason}"] }

def addFinding (f : OverflowFinding) (r : OverflowReport) : OverflowReport :=
  { r with findings := r.findings ++ [f] }

def nodeName (node : Node) (k : Nat) : String := if node.name = "" then s!"{node.opType}_{k}" else node.name

def outputAt (node : Node) (i : Nat) : String := node.outputs.getD i ""

def castTarget (node : Node) : Option (Int × Int) :=
  if node.opType = "Cast" ∧ inputAt node 0 ≠ "" then native (node.attrs.castTo.getD .undefined) else none

def castStep (c : Context) (name : String) (node : Node) (r : OverflowReport) : OverflowReport :=
  match castTarget node with
  | none => r
  | some range =>
    match bounded c.result (inputAt node 0) with
    | .error reason => addUnanalysed name reason r
    | .ok b =>
      let r := addFinding (finding name (inputAt node 0) .cast b.1 b.2 ⟨"", range.1, range.2⟩) r
      if c.inScope (outputAt node 0) then addFinding (finding name (outputAt node 0) .tensor b.1 b.2 c.window) r
      else r

/-- The accumulator that is checked: an integer operator's, or one whose output is in scope. -/
def checkedAccumulator (field : Bool) (elem : String → Option DataType) (node : Node) : Option Accumulating :=
  (accumulating node.opType).filter fun acc =>
    outputAt node 0 ≠ "" && (acc.isInteger || inScope field elem (outputAt node 0))

def accumulatorStep (c : Context) (name : String) (node : Node) (r : OverflowReport) : OverflowReport :=
  match checkedAccumulator c.field c.elem node with
  | none => r
  | some acc =>
    match accumulatorBound c.result c.consts acc node with
    | .error reason => addUnanalysed name reason r
    | .ok b => addFinding (finding name (outputAt node 0) .accumulator (-b) b c.window) r

/-- The output is the accumulator, or bounded by the input of the Cast. -/
def covered (node : Node) : Bool :=
  node.opType = "MatMulInteger" || node.opType = "ConvInteger" || (castTarget node).isSome

def outputStep (c : Context) (name : String) (r : OverflowReport) (o : String) : OverflowReport :=
  if o = "" || !c.inScope o then r
  else
    match bounded c.result o with
    | .error reason => addUnanalysed name reason r
    | .ok b => addFinding (finding name o .tensor b.1 b.2 c.window) r

def nodeStep (c : Context) (r : OverflowReport) (e : Node × Nat) : OverflowReport :=
  let name := nodeName e.1 e.2
  let r := accumulatorStep c name e.1 (castStep c name e.1 r)
  if covered e.1 then r else e.1.outputs.foldl (outputStep c name) r

/-- Check that no reachable value leaves a signed word, or a field. -/
def certifyNoOverflow (rule : Rule) (m : Model) (inputRanges : SortedMap String Range)
    (bits fieldModulus : Option Int) : Except String OverflowReport := do
  let w ← window bits fieldModulus
  let result ← propagate rule m (feeds m inputRanges)
  let c : Context := ⟨w, fieldModulus.isSome, m.elem, result, m.consts⟩
  .ok (m.nodes.zipIdx.foldl (nodeStep c) ⟨w.name, [], []⟩)

end Onnxsim.Overflow.Certificate

namespace Onnxsim.Overflow.Accumulators

open List Option Lib.OrderedMaps Lib.PartialSums
open Arrays Operators Intervals
open Certificate

variable {shape : List Nat}

section

variable {idx : List Nat} {k : Nat} {a : NDArray ℚ}

theorem offset_isSome (h : offset shape idx = some k) : List.Forall₂ (fun i n => i < n) idx shape := by
  induction shape generalizing idx k with
  | nil =>
    cases idx with
    | nil => exact .nil
    | cons i idx => cases h
  | cons n shape ih =>
    cases idx with
    | nil => cases h
    | cons i idx =>
      rw [offset] at h
      split at h
      · next hi =>
        obtain ⟨k', hk', -⟩ := map_eq_some_iff.mp h
        exact .cons hi (ih hk')
      · cases h

theorem lt_of_get? {α : Type} {a : NDArray α} {v : α} (h : a.get? idx = some v) :
    List.Forall₂ (fun i n => i < n) idx a.shape := by
  obtain ⟨k, hk, -⟩ := bind_eq_some_iff.mp h
  exact offset_isSome hk

theorem mem_indices (h : List.Forall₂ (fun i n => i < n) idx shape) : idx ∈ indices shape := by
  induction h with
  | nil => exact mem_singleton.mpr rfl
  | cons hi _ ih =>
    exact mem_flatMap.mpr ⟨_, mem_range.mpr hi, List.mem_map_of_mem ih⟩

theorem forall₂_append_two {R : Nat → Nat → Prop} {b : List Nat} {n : Nat} (h : List.Forall₂ R (b ++ [k, n]) shape) :
    ∃ batch K N, shape = batch ++ [K, N] ∧ List.Forall₂ R b batch ∧ R k K ∧ R n N := by
  induction b generalizing shape with
  | nil =>
    obtain ⟨K, rest, hk, hrest, rfl⟩ := forall₂_cons_left_iff.mp h
    obtain ⟨N, rest', hn, hnil, rfl⟩ := forall₂_cons_left_iff.mp hrest
    cases hnil
    exact ⟨[], K, N, rfl, .nil, hk, hn⟩
  | cons x b ih =>
    obtain ⟨X, rest, hx, hrest, rfl⟩ := forall₂_cons_left_iff.mp h
    obtain ⟨batch, K, N, rfl, hb, hk, hn⟩ := ih hrest
    exact ⟨X :: batch, K, N, rfl, .cons hx hb, hk, hn⟩

theorem elementAt_nonneg (ha : ∀ v ∈ a.data, 0 ≤ v) (idx : List Nat) : 0 ≤ elementAt a idx := by
  rw [elementAt]
  cases h : a.get? idx with
  | none => exact le_rfl
  | some v => exact ha v (NDArray.mem_of_get? h)

theorem elementAt_eq_zero (h : ¬ List.Forall₂ (fun i n => i < n) idx a.shape) : elementAt a idx = 0 := by
  rw [elementAt]
  cases hget : a.get? idx with
  | none => rfl
  | some v => exact absurd (lt_of_get? hget) h

theorem maxSum_nonneg (sums : List ℚ) : 0 ≤ maxSum sums := start_le_foldl_max 0 sums

theorem column_le (ha : ∀ v ∈ a.data, 0 ≤ v) (b : List Nat) (n m : Nat) :
    rangeSum m (fun k => elementAt a (b ++ [k, n])) ≤ maxSum (columnSums a) := by
  by_cases hread : ∃ k, List.Forall₂ (fun i n => i < n) (b ++ [k, n]) a.shape
  · obtain ⟨k, hk⟩ := hread
    obtain ⟨batch, K, N, hshape, hb, -, hn⟩ := forall₂_append_two hk
    have hzero : ∀ k, K ≤ k → elementAt a (b ++ [k, n]) = 0 := by
      intro k hk
      apply elementAt_eq_zero
      intro hlt
      obtain ⟨batch', K', N', hshape', -, hk', -⟩ := forall₂_append_two hlt
      rw [hshape] at hshape'
      obtain ⟨-, hlast⟩ := append_inj' hshape' rfl
      cases hlast
      omega
    have hmem : rangeSum K (fun k => elementAt a (b ++ [k, n])) ∈ columnSums a := by
      rw [columnSums, hshape]
      have hbatch : (batch ++ [K, N]).dropLast.dropLast = batch := by simp
      have hK : (batch ++ [K, N]).dropLast.getLastD 0 = K := by simp
      have hN : (batch ++ [K, N]).getLastD 0 = N := by simp
      rw [hbatch, hK, hN]
      apply mem_flatMap.mpr
      refine ⟨b, mem_indices hb, List.mem_map.mpr ⟨n, mem_range.mpr hn, rfl⟩⟩
    exact (sum_range_le (fun k => elementAt_nonneg ha _) hzero m).trans (le_foldl_max hmem 0)
  · have hall : rangeSum m (fun k => elementAt a (b ++ [k, n])) = 0 := by
      rw [rangeSum]
      apply sum_eq_zero
      intro v hv
      obtain ⟨k, -, rfl⟩ := List.mem_map.mp hv
      exact elementAt_eq_zero fun hlt => hread ⟨k, hlt⟩
    rw [hall]
    exact maxSum_nonneg _

theorem channel_le (oc : Nat) :
    ((indices (a.shape.drop 1)).map fun ck => elementAt a (oc :: ck)).sum ≤ maxSum (channelSums a) := by
  by_cases hoc : oc < a.shape.headD 0
  · apply le_foldl_max
    exact List.mem_map.mpr ⟨oc, mem_range.mpr hoc, rfl⟩
  · have hall : ((indices (a.shape.drop 1)).map fun ck => elementAt a (oc :: ck)).sum = 0 := by
      apply sum_eq_zero
      intro v hv
      obtain ⟨ck, -, rfl⟩ := List.mem_map.mp hv
      apply elementAt_eq_zero
      intro hlt
      obtain ⟨n, rest, hn, -, hshape⟩ := forall₂_cons_left_iff.mp hlt
      rw [hshape] at hoc
      exact hoc hn
    rw [hall]
    exact maxSum_nonneg _

theorem vector_sum (ha : ∀ v ∈ a.data, 0 ≤ v) (hshape : a.shape.length = 1) (m : Nat) :
    rangeSum m (fun k => elementAt a [k]) ≤ a.data.sum := by
  obtain ⟨n, hn⟩ := length_eq_one_iff.mp hshape
  have hlen : a.data.length = n := by
    rw [a.length_data, hn, prod_singleton]
  have hread : ∀ k < n, elementAt a [k] = a.data.getD k 0 := by
    intro k hk
    rw [elementAt, NDArray.get?, hn, offset, if_pos hk, getD_eq_getElem?_getD]
    simp [offset]
  have hzero : ∀ k, n ≤ k → elementAt a [k] = 0 := by
    intro k hk
    apply elementAt_eq_zero
    rw [hn]
    intro hlt
    cases hlt with
    | cons hkn _ => omega
  have hdata : (List.range n).map (fun k => elementAt a [k]) = a.data := by
    apply ext_getElem
    · simp [hlen]
    · intro i h₁ h₂
      rw [getElem_map, getElem_range, hread i (hlen ▸ h₂), getD_eq_getElem?_getD,
        getElem?_eq_getElem h₂, getD_some]
  refine (sum_range_le (fun k => elementAt_nonneg ha _) hzero m).trans ?_
  rw [hdata]

variable {κ : Type} {zx zw mx mw : ℚ} {ks : List κ} {x w : κ → Option ℚ}

theorem abs_products_le (hmx : 0 ≤ mx) (hx : ∀ k a, x k = some a → |a - zx| ≤ mx) :
    ((products zx zw ks x w).map abs).sum ≤ (ks.map fun k => ((w k).map fun b => |b - zw|).getD 0).sum * mx := by
  induction ks with
  | nil => simp [products]
  | cons k ks ih =>
    have hweight : 0 ≤ ((w k).map fun b => |b - zw|).getD 0 := by
      cases w k with
      | none => exact le_rfl
      | some b => exact abs_nonneg (b - zw)
    rw [map_cons, sum_cons, add_mul]
    cases hxk : x k with
    | none =>
      have hskip : products zx zw (k :: ks) x w = products zx zw ks x w := by
        rw [products, filterMap_cons_none (by rw [hxk]; rfl)]
        rfl
      rw [hskip]
      exact ih.trans (le_add_of_nonneg_left (mul_nonneg hweight hmx))
    | some a =>
      cases hwk : w k with
      | none =>
        have hskip : products zx zw (k :: ks) x w = products zx zw ks x w := by
          rw [products, filterMap_cons_none (by rw [hxk, hwk]; rfl)]
          rfl
        rw [hskip, map_none, getD_none, zero_mul, zero_add]
        exact ih
      | some b =>
        have hterm : products zx zw (k :: ks) x w = (a - zx) * (b - zw) :: products zx zw ks x w := by
          rw [products, filterMap_cons_some (by rw [hxk, hwk]; rfl)]
          rfl
        rw [hterm, map_cons, sum_cons, map_some, getD_some, abs_mul, mul_comm |a - zx|]
        exact add_le_add (mul_le_mul_of_nonneg_left (hx k a hxk) (abs_nonneg _)) ih

theorem abs_products_le_depth (hmx : 0 ≤ mx) (hmw : 0 ≤ mw) (hx : ∀ k a, x k = some a → |a - zx| ≤ mx)
    (hw : ∀ k b, w k = some b → |b - zw| ≤ mw) :
    ((products zx zw ks x w).map abs).sum ≤ ks.length * mx * mw := by
  have hone : ∀ k ∈ ks, ((w k).map fun b => |b - zw|).getD 0 ≤ mw := by
    intro k _
    cases hwk : w k with
    | none => exact hmw
    | some b => exact hw k b hwk
  have hsum : (ks.map fun k => ((w k).map fun b => |b - zw|).getD 0).sum ≤ ks.length * mw := by
    have hconst := sum_le_sum hone
    rw [map_const', sum_replicate, nsmul_eq_mul] at hconst
    exact hconst
  calc ((products zx zw ks x w).map abs).sum
      ≤ (ks.map fun k => ((w k).map fun b => |b - zw|).getD 0).sum * mx := abs_products_le hmx hx
    _ ≤ ks.length * mw * mx := mul_le_mul_of_nonneg_right hsum hmx
    _ = ks.length * mx * mw := mul_right_comm _ _ _

end

variable {x w : Tensor} {zxs zws : Option Tensor} {zx zw mx mw : ℚ} {idx : List Nat}

/-- The weights with their zero point taken off, as magnitudes. -/
def magnitudes (w : Tensor) (zw : ℚ) : NDArray ℚ := w.map fun v => |v - zw|

theorem magnitudes_nonneg (w : Tensor) (zw : ℚ) : ∀ v ∈ (magnitudes w zw).data, 0 ≤ v := by
  intro v hv
  obtain ⟨u, -, rfl⟩ := List.mem_map.mp hv
  exact abs_nonneg _

theorem elementAt_magnitudes (w : Tensor) (zw : ℚ) (idx : List Nat) :
    ((w.get? idx).map fun b => |b - zw|).getD 0 = elementAt (magnitudes w zw) idx := by
  rw [elementAt, magnitudes, NDArray.get?_map]

theorem matMul_le (hzx : ∀ i ix, zeroPoint zxs i ix = zx) (hzw : ∀ i ix, zeroPoint zws i ix = zw) (hmx : 0 ≤ mx)
    (hx : ∀ v ∈ x.data, |v - zx| ≤ mx) :
    ((matMulProducts x w zxs zws idx).map abs).sum ≤ (if (magnitudes w zw).shape.length = 1 then
      (magnitudes w zw).data.sum else maxSum (columnSums (magnitudes w zw))) * mx := by
  rw [matMulProducts, hzx, hzw]
  refine (abs_products_le hmx fun k a ha => hx a (NDArray.mem_of_get? ha)).trans ?_
  apply mul_le_mul_of_nonneg_right _ hmx
  simp only [elementAt_magnitudes]
  by_cases hshape : w.shape.length = 1
  · have hvector : (magnitudes w zw).shape.length = 1 := hshape
    rw [if_pos hvector]
    simp only [rightIndex, if_pos hshape]
    exact vector_sum (magnitudes_nonneg w zw) hvector _
  · have hmatrix : ¬ (magnitudes w zw).shape.length = 1 := hshape
    rw [if_neg hmatrix]
    simp only [rightIndex, if_neg hshape]
    exact column_le (magnitudes_nonneg w zw) _ _ _

theorem matMul_le_depth (hzx : ∀ i ix, zeroPoint zxs i ix = zx) (hzw : ∀ i ix, zeroPoint zws i ix = zw)
    (hmx : 0 ≤ mx) (hmw : 0 ≤ mw) (hx : ∀ v ∈ x.data, |v - zx| ≤ mx) (hw : ∀ v ∈ w.data, |v - zw| ≤ mw) :
    ((matMulProducts x w zxs zws idx).map abs).sum ≤ (x.shape.getLastD 0 : Nat) * mx * mw := by
  rw [matMulProducts, hzx, hzw]
  refine (abs_products_le_depth hmx hmw (fun k a ha => hx a (NDArray.mem_of_get? ha))
    fun k b hb => hw b (NDArray.mem_of_get? hb)).trans ?_
  rw [length_range]

variable {attrs : Attrs} {bias : Option Tensor} {mb : ℚ}

theorem mem_of_convInput {ck : List Nat} {v : ℚ} (h : convInput attrs x w idx ck = some v) : v ∈ x.data := by
  unfold convInput at h
  split at h
  · obtain ⟨pos, -, h⟩ := bind_eq_some_iff.mp h
    exact NDArray.mem_of_get? h
  · cases h

theorem conv_le (hzx : ∀ i ix, zeroPoint zxs i ix = zx) (hzw : ∀ i ix, zeroPoint zws i ix = zw) (hmx : 0 ≤ mx)
    (hx : ∀ v ∈ x.data, |v - zx| ≤ mx)
    (hbias : (((bias.bind fun b => b.get? [(idx.drop 1).headD 0]).toList).map abs).sum ≤ mb) :
    ((convProducts attrs x w zxs zws bias idx).map abs).sum ≤
      maxSum (channelSums (magnitudes w zw)) * mx + mb := by
  rw [convProducts, hzx, hzw, map_append, sum_append]
  refine add_le_add ((abs_products_le hmx fun k a ha => hx a (mem_of_convInput ha)).trans ?_) hbias
  apply mul_le_mul_of_nonneg_right _ hmx
  simp only [elementAt_magnitudes]
  exact channel_le _

theorem conv_le_depth (hzx : ∀ i ix, zeroPoint zxs i ix = zx) (hzw : ∀ i ix, zeroPoint zws i ix = zw) (hmx : 0 ≤ mx)
    (hmw : 0 ≤ mw) (hx : ∀ v ∈ x.data, |v - zx| ≤ mx) (hw : ∀ v ∈ w.data, |v - zw| ≤ mw)
    (hbias : (((bias.bind fun b => b.get? [(idx.drop 1).headD 0]).toList).map abs).sum ≤ mb) :
    ((convProducts attrs x w zxs zws bias idx).map abs).sum ≤ ((w.shape.drop 1).prod : Nat) * mx * mw + mb := by
  rw [convProducts, hzx, hzw, map_append, sum_append]
  refine add_le_add ((abs_products_le_depth hmx hmw (fun k a ha => hx a (mem_of_convInput ha))
    fun k b hb => hw b (NDArray.mem_of_get? hb)).trans ?_) hbias
  rw [length_indices]

theorem matrix_le {a : NDArray ℚ} (ha : ∀ v ∈ a.data, 0 ≤ v) {depth cols : Nat} (read : Nat → Nat → List Nat)
    (hdepth : ∀ k n, List.Forall₂ (fun i n => i < n) (read k n) a.shape → k < depth ∧ n < cols) (m n : Nat) :
    rangeSum m (fun k => elementAt a (read k n)) ≤
      maxSum (matrixSums depth cols fun k n => elementAt a (read k n)) := by
  have hzero : ∀ k, depth ≤ k → elementAt a (read k n) = 0 := by
    intro k hk
    apply elementAt_eq_zero
    intro hlt
    have hkd := (hdepth k n hlt).1
    omega
  refine (sum_range_le (fun k => elementAt_nonneg ha _) hzero m).trans ?_
  by_cases hn : n < cols
  · apply le_foldl_max
    exact List.mem_map.mpr ⟨n, mem_range.mpr hn, rfl⟩
  · have hall : ((List.range depth).map fun k => elementAt a (read k n)).sum = 0 := by
      apply sum_eq_zero
      intro v hv
      obtain ⟨k, -, rfl⟩ := List.mem_map.mp hv
      exact elementAt_eq_zero fun hlt => hn (hdepth k n hlt).2
    rw [hall]
    exact maxSum_nonneg _

theorem lt_of_pair {i j : Nat} (h : List.Forall₂ (fun i n => i < n) [i, j] shape) :
    i < shape.getD 0 0 ∧ j < shape.getD 1 0 := by
  obtain ⟨batch, m, n, rfl, hnil, hi, hj⟩ := forall₂_append_two (b := []) h
  cases hnil
  exact ⟨hi, hj⟩

end Onnxsim.Overflow.Accumulators
