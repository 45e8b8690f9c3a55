import Onnxsim.Symbolic.Polynomial
import Onnxsim.ShapeRanges.LayoutSound

namespace Onnxsim.Slicing.Rules

open Symbolic.Expr Symbolic.Expr.SymExpr
open ShapeRanges.Dims ShapeRanges.Layout

def concrete (e : SymExpr) : Option Int := if e.isSymbolic then none else some e.toInt

/-- The numbers of an `int64_t`. -/
def Fits (x : Int) : Prop := -2 ^ 63 ≤ x ∧ x < 2 ^ 63

instance (x : Int) : Decidable (Fits x) := inferInstanceAs (Decidable (_ ∧ _))

/-- The value of a signed expression. Here and below `none` is undefined behaviour. -/
def int64 (x : Int) : Option Int := if Fits x then some x else none

/-- `std::clamp`, which demands `lo ≤ hi`. -/
def clamp (v lo hi : Int) : Option Int :=
  if hi < lo then none else some (if v < lo then lo else if hi < v then hi else v)

def offset (len v : Int) : Option Int := if v < 0 then int64 (v + len) else some v

/-- The count of one axis in `shaping::Slice`. -/
def sliceCount (len start stop step : Int) : Option Int := do
  let s ← offset len start
  let e ← offset len stop
  if 0 < step then
    let s ← clamp s 0 len
    let e ← clamp e 0 len
    if s < e then
      let gap ← int64 (e - s)
      let sum ← int64 (gap + step)
      let top ← int64 (sum - 1)
      int64 (top.tdiv step)
    else some 0
  else
    let s ← clamp s 0 (len - 1)
    let e ← clamp e (-1) (len - 1)
    if e < s then
      let gap ← int64 (s - e)
      let sum ← int64 (gap - step)
      let top ← int64 (sum - 1)
      let size ← int64 (-step)
      int64 (top.tdiv size)
    else some 0

def normalizeAxis (axis rank : Int) : Int := if axis < 0 then axis + rank else axis

/-- The `n`-th symbol of `FreshDims`. -/
def freshDim (n : Nat) : SymExpr := symbol ("unk_" ++ toString n)

/-- What the loop carries: the output and the number of fresh symbols taken. -/
abbrev Progress := List SymExpr × Nat

/-- The loop from its `j`-th turn on; the inner `none` is `std::nullopt`. -/
def sliceFrom (input : List SymExpr) (axes steps : Option (List Int)) (j : Nat) :
    List (Int × Int) → Progress → Option (Option Progress)
  | [], out => some (some out)
  | (start, stop) :: rest, (out, fresh) =>
    let axis := match axes with
      | some as => normalizeAxis (as.getD j 0) input.length
      | none => (j : Int)
    if axis < 0 ∨ (input.length : Int) ≤ axis then some none
    else
      let step := (steps.bind fun ss => ss[j]?).getD 1
      match concrete (input.getD axis.toNat zero) with
      | some len =>
        if step = 0 then
          sliceFrom input axes steps (j + 1) rest (out.set axis.toNat (freshDim fresh), fresh + 1)
        else do
          let count ← sliceCount len start stop step
          sliceFrom input axes steps (j + 1) rest (out.set axis.toNat (const count), fresh)
      | none =>
        sliceFrom input axes steps (j + 1) rest (out.set axis.toNat (freshDim fresh), fresh + 1)

/-- `shaping::Slice`. -/
def slice (input : List SymExpr) (starts ends : List Int) (axes steps : Option (List Int)) (fresh : Nat) :
    Option (Option Progress) :=
  if starts.length ≠ ends.length then some none
  else if axes.any fun as => as.length < starts.length then some none
  else sliceFrom input axes steps 0 (starts.zip ends) (input, fresh)

variable {α : Type}

/-- The loop goes on at `i`. -/
def Continues (stop step i : Int) : Prop := if 0 < step then i < stop else stop < i

instance (stop step i : Int) : Decidable (Continues stop step i) :=
  inferInstanceAs (Decidable (if 0 < step then i < stop else stop < i))

theorem measure_lt {stop step i : Int} (hstep : step ≠ 0) (h : Continues stop step i) :
    (if 0 < step then (stop - (i + step)).toNat else (i + step - stop).toNat) <
      if 0 < step then (stop - i).toNat else (i - stop).toNat := by
  rw [Continues] at h
  by_cases hpos : 0 < step
  · simp only [if_pos hpos] at h ⊢
    omega
  · simp only [if_neg hpos] at h ⊢
    omega

/-- The two loops of `EvalSlice`; a read outside the vector is undefined behaviour. -/
def enumerate (data : List α) (stop step : Int) (hstep : step ≠ 0) (i : Int) : Option (List α) :=
  if h : Continues stop step i then
    match if 0 ≤ i then data[i.toNat]? else none with
    | none => none
    | some x =>
      if Fits (i + step) then (enumerate data stop step hstep (i + step)).map (x :: ·) else none
  else some []
termination_by if 0 < step then (stop - i).toNat else (i - stop).toNat
decreasing_by exact measure_lt hstep h

/-- The elements that `EvalSlice` takes from a vector. -/
def sliceElements (data : List α) (start stop step : Int) (hstep : step ≠ 0) : Option (List α) := do
  let len : Int := data.length
  let s ← offset len start
  let e ← offset len stop
  if 0 < step then
    let s ← clamp s 0 len
    let e ← clamp e 0 len
    enumerate data e step hstep s
  else
    let s ← clamp s 0 (len - 1)
    let e ← clamp e (-1) (len - 1)
    enumerate data e step hstep s

structure SymTensor where
  scalar : Bool
  data : List SymExpr

def only : List Int → Option Int
  | [x] => some x
  | _ => none

/-- `EvalSlice` on the operands that it finds; the inner `none` is `std::nullopt`. -/
def evalSlice (data : Option SymTensor) (starts ends axes steps : Option (List Int)) :
    Option (Option SymTensor) :=
  match data with
  | none => some none
  | some t =>
    if t.scalar then some none
    else
      match starts.bind only, ends.bind only with
      | some start, some stop =>
        if axes.any fun as => as ≠ [0] ∧ as ≠ [-1] then some none
        else
          let step := (steps.bind only).getD 1
          if hstep : step = 0 then some none
          else (sliceElements t.data start stop step hstep).map fun xs => some ⟨false, xs⟩
      | _, _ => some none

/-- `_slice_len`; Python rounds quotients down. -/
def sliceLen (n start stop step : Int) : Int :=
  if 0 < step then
    let s := min (max (if start < 0 then start + n else start) 0) n
    let e := min (max (if stop < 0 then stop + n else stop) 0) n
    max 0 (-(-(e - s)).fdiv step)
  else
    let s := min (max (if start < 0 then start + n else start) (-1)) (n - 1)
    let e := min (max (if stop < 0 then stop + n else stop) (-1)) (n - 1)
    max 0 (-(-(s - e)).fdiv (-step))

/-- One axis of `slice_`. -/
def sliceDim (d : Dim) (start stop step : Int) (enumerateLimit : Int) : Except RuleError Dim :=
  match d.hi with
  | none => newDim 0 none
  | some hi =>
    if (hi : Int) - d.lo > enumerateLimit then newDim 0 (if step = 1 then some hi else none)
    else
      let lens := (List.range' d.lo (hi + 1 - d.lo)).map fun n : Nat => sliceLen n start stop step
      match lens.min?, lens.max? with
      | some lo, some hi => newDim lo (some hi)
      | _, _ => .error .index

def sliceAxes (shape : Shape) (enumerateLimit : Int) :
    List ((Int × Int) × (Nat × Int)) → Shape → Except RuleError (Option Shape)
  | [], out => .ok (some out)
  | ((start, stop), (ax, step)) :: rest, out =>
    match shape[ax]? with
    | none => .error .index
    | some d =>
      if step = 0 then .ok none
      else do
        let d' ← sliceDim d start stop step enumerateLimit
        sliceAxes shape enumerateLimit rest (out.set ax d')

/-- `slice_`. -/
def slice_ (shape : Shape) (starts ends : List Int) (axes steps : Option (List Int))
    (enumerateLimit : Int) : Except RuleError (Option Shape) := do
  let axesL ← match axes with
    | none => pure (List.range starts.length)
    | some as => normAxes as shape.length
  let stepsL := steps.getD (List.replicate starts.length 1)
  sliceAxes shape enumerateLimit ((starts.zip ends).zip (axesL.zip stepsL)) shape

end Onnxsim.Slicing.Rules
