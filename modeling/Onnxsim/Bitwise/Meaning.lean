import Onnxsim.Bitwise.Decomposition
import Onnxsim.Bitwise.Words
import Onnxsim.Fold.SubModels

namespace Onnxsim.Bitwise.Meaning

open Decomposition Words
open Fold.Semantics (slots named_slots)
open Lib.Dataflow
open Overflow.Arrays Reduce.Axes
open Proto.Graphs
open Proto.Models (isDefaultDomain)
open ShapeRanges.Broadcasting (actualBroadcast2 actualBroadcast2_self)

inductive IntType where
  | uint8
  | int8
  | uint16
  | int16
  | uint32
  | int32
  | uint64
  | int64
deriving DecidableEq

def IntType.width : IntType → Nat
  | .uint8 | .int8 => 8
  | .uint16 | .int16 => 16
  | .uint32 | .int32 => 32
  | .uint64 | .int64 => 64

def IntType.signed : IntType → Bool
  | .int8 | .int16 | .int32 | .int64 => true
  | .uint8 | .uint16 | .uint32 | .uint64 => false

def IntType.elemType : IntType → Int
  | .uint8 => 2
  | .int8 => 3
  | .uint16 => 4
  | .int16 => 5
  | .uint32 => 12
  | .int32 => 6
  | .uint64 => 13
  | .int64 => 7

theorem mem_integerElemTypes (t : IntType) : t.elemType ∈ integerElemTypes ∧ t.elemType ≠ 0 := by
  cases t <;> decide

/-- A tensor of integers, or one that no bitwise operator takes. -/
inductive Tensor (O : Type) where
  | ints (t : IntType) (a : NDArray (BitVec t.width))
  | other (o : O)

variable {w : Nat}

/-- The element that broadcasting reads at an index of the result. -/
def readAt (a : NDArray (BitVec w)) (idx : List Nat) : BitVec w := (a.get? (alignIndex a.shape idx)).getD 0#w

/-- An operator on the elements of two arrays that are broadcast to one shape. -/
def elementwise (f : BitVec w → BitVec w → BitVec w) (a b : NDArray (BitVec w)) : Option (NDArray (BitVec w)) :=
  (actualBroadcast2 a.shape b.shape).map fun s => NDArray.ofFn s fun idx => f (readAt a idx) (readAt b idx)

theorem readAt_ofFn {s idx : List Nat} (f : List Nat → BitVec w) (h : idx ∈ indices s) :
    readAt (NDArray.ofFn s f) idx = f idx := by
  have hshape : (NDArray.ofFn s f).shape = s := rfl
  rw [readAt, hshape, alignIndex_self h, NDArray.get?_ofFn f h, Option.getD_some]

theorem elementwise_ofFn (f : BitVec w → BitVec w → BitVec w) (s : List Nat) (g h : List Nat → BitVec w) :
    elementwise f (NDArray.ofFn s g) (NDArray.ofFn s h) = some (NDArray.ofFn s fun idx => f (g idx) (h idx)) := by
  have hshape : ∀ k : List Nat → BitVec w, (NDArray.ofFn s k).shape = s := fun _ => rfl
  rw [elementwise, hshape, hshape, actualBroadcast2_self, Option.map_some]
  apply congrArg some
  apply ofFn_congr rfl
  intro idx hidx
  rw [readAt_ofFn g hidx, readAt_ofFn h hidx]

variable {O : Type}

def binary (f : ∀ w : Nat, BitVec w → BitVec w → BitVec w) : List (Option (Tensor O)) → List (Tensor O)
  | [some (.ints t a), some (.ints u b)] =>
    if h : u = t then ((elementwise (f t.width) a (h ▸ b)).map (Tensor.ints t)).toList else []
  | _ => []

def isOther : Option (Tensor O) → Bool
  | some (.other _) => true
  | _ => false

/-- The operators that the pass does not look at. -/
structure Runtime (O : Type) where
  run : Node → (String → Option (Tensor O)) → List (Tensor O)
  run_congr : ∀ n e e', (∀ x ∈ n.reads, e x = e' x) → run n e = run n e'

def operand (e : String → Option (Tensor O)) (x : String) : Option (Tensor O) := if x = "" then none else e x

def operands (n : Node) (e : String → Option (Tensor O)) : List (Option (Tensor O)) := n.input.map (operand e)

def runNode (rt : Runtime O) (n : Node) (e : String → Option (Tensor O)) : List (Tensor O) :=
  if isDefaultDomain n.domain then
    if n.opType = "BitwiseXor" then binary (fun _ x y => x ^^^ y) (operands n e)
    else if n.opType = "BitwiseOr" then binary (fun _ x y => x ||| y) (operands n e)
    else if n.opType = "BitwiseAnd" then binary (fun _ x y => x &&& y) (operands n e)
    else if n.opType = "Sub" ∧ ¬ (operands n e).any isOther then binary (fun _ x y => x - y) (operands n e)
    else rt.run n e
  else rt.run n e

theorem operands_congr {n : Node} {e e' : String → Option (Tensor O)} (h : ∀ x ∈ n.reads, e x = e' x) :
    operands n e = operands n e' := by
  apply List.map_congr_left
  intro x hx
  rw [operand, operand]
  split
  · rfl
  · next hne => exact h x (Node.mem_reads_of_input hx hne)

theorem runNode_congr (rt : Runtime O) (n : Node) (e e' : String → Option (Tensor O))
    (h : ∀ x ∈ n.reads, e x = e' x) : runNode rt n e = runNode rt n e' := by
  rw [runNode, runNode, operands_congr h, rt.run_congr n e e' h]

def behaviour (rt : Runtime O) : Behaviour Node String (Tensor O) where
  reads := Node.reads
  writes n := slots n.output
  run := runNode rt
  run_congr := runNode_congr rt

theorem written_eq (rt : Runtime O) (n : Node) : written (behaviour rt) n = nonempty n.output :=
  named_slots n.output

/-- Whether a declared dimension allows a length, where `ρ` gives the lengths of the named ones. -/
def Dim.Fits (ρ : String → Nat) : Dim → Nat → Prop
  | .value n, k => n = k
  | .param p, k => ρ p = k
  | .unknown, _ => True

/-- The value info declares the type and the shape of a tensor, and declares them right. -/
def Declares (ρ : String → Nat) (v : ValueInfo) (t : IntType) (s : List Nat) : Prop :=
  v.elemType = t.elemType ∧ ∃ dims, v.shape = some dims ∧ List.Forall₂ (Dim.Fits ρ) dims s

def Truthful (ρ : String → Nat) (v : ValueInfo) (t : IntType) (s : List Nat) : Prop :=
  (v.elemType ≠ 0 → v.elemType = t.elemType) ∧ ∀ dims, v.shape = some dims → List.Forall₂ (Dim.Fits ρ) dims s

/-- Every length that is declared stays as it is from one shape to the other. -/
def Keeps : List Dim → List Nat → List Nat → Prop
  | [], [], [] => True
  | d :: dims, n :: s, k :: z => (d = .unknown ∨ n = k) ∧ Keeps dims s z
  | _, _, _ => False

/-- A value info that is right of the shape `s` and says all that its copy needs to be right of `z`. -/
def Carries (v : ValueInfo) (s z : List Nat) : Prop := v.elemType ≠ 0 ∧ ∃ dims, v.shape = some dims ∧ Keeps dims s z

theorem fits_iff_keeps {ρ : String → Nat} {dims : List Dim} {s z : List Nat} (h : List.Forall₂ (Dim.Fits ρ) dims s) :
    List.Forall₂ (Dim.Fits ρ) dims z ↔ Keeps dims s z := by
  induction h generalizing z with
  | nil => cases z <;> simp [Keeps]
  | @cons d n dims s hd _ ih =>
    cases z with
    | nil => simp [Keeps]
    | cons k z =>
      rw [List.forall₂_cons, Keeps, ih]
      apply and_congr_left
      intro _
      cases d with
      | value m =>
        have hm : m = n := hd
        simp [Dim.Fits, hm]
      | param p =>
        have hp : ρ p = n := hd
        simp [Dim.Fits, hp]
      | unknown => simp [Dim.Fits]

theorem declares_iff_carries {ρ : String → Nat} {v : ValueInfo} {t : IntType} {s z : List Nat}
    (h : Truthful ρ v t s) : Declares ρ v t z ↔ Carries v s z := by
  have htype : v.elemType = t.elemType ↔ v.elemType ≠ 0 := by
    constructor
    · intro heq hzero
      exact (mem_integerElemTypes t).2 (heq.symm.trans hzero)
    · exact h.1
  rw [Declares, Carries, htype]
  apply and_congr_right
  intro _
  apply exists_congr
  intro dims
  apply and_congr_right
  intro hdims
  exact fits_iff_keeps (h.2 dims hdims)

end Onnxsim.Bitwise.Meaning
