import Onnxsim.Lib.Bytes
import Onnxsim.Lib.OrderedMaps

namespace Onnxsim.Storage.Pool

open Lib.Bytes Lib.OrderedMaps

def ascii (s : String) : ByteString := s.toList.map (fun c => Fin.ofNat 256 c.toNat)

def textOf (s : ByteString) : String := String.ofList (s.map fun b => Char.ofNat b.val)

/-- A stream position is a signed 64-bit count, so a write beyond it fails. -/
def maxFileSize : Nat := 2 ^ 63

structure Entry where
  dtype : Int
  shape : List Int64
  data : ByteString
  deriving DecidableEq

/-- `std::map<std::string, Entry>`: the pool walks its tensors in byte order of their names. -/
abbrev TensorPool := SortedMap ByteString Entry

def onnxUndefined : Int := 0

/-- The dtype table of `tensor_pool_dtype.h`: ONNX code, safetensors name, element size. -/
def dtypeTable : List (Int × String × Nat) :=
  [(9, "BOOL", 1), (2, "U8", 1), (3, "I8", 1), (5, "I16", 2), (4, "U16", 2), (6, "I32", 4),
   (12, "U32", 4), (7, "I64", 8), (13, "U64", 8), (10, "F16", 2), (16, "BF16", 2), (1, "F32", 4),
   (11, "F64", 8)]

def elementSize (dtype : Int) : Nat :=
  match dtypeTable.find? (fun t => t.1 = dtype) with
  | some t => t.2.2
  | none => 0

def toSafetensors (dtype : Int) : ByteString :=
  match dtypeTable.find? (fun t => t.1 = dtype) with
  | some t => ascii t.2.1
  | none => []

def fromSafetensors (name : ByteString) : Int :=
  match dtypeTable.find? (fun t => ascii t.2.1 = name) with
  | some t => t.1
  | none => onnxUndefined

theorem find?_dtypeTable {dtype : Int} (h : toSafetensors dtype ≠ []) :
    ∃ t ∈ dtypeTable, t.1 = dtype ∧ toSafetensors dtype = ascii t.2.1 := by
  unfold toSafetensors at h ⊢
  cases hf : dtypeTable.find? (fun t => t.1 = dtype) with
  | none => simp [hf] at h
  | some t => exact ⟨t, List.mem_of_find?_eq_some hf, by simpa using List.find?_some hf, rfl⟩

theorem fromSafetensors_table :
    ∀ t ∈ dtypeTable, fromSafetensors (ascii t.2.1) = t.1 ∧ t.1 ≠ onnxUndefined := by
  decide

theorem fromSafetensors_toSafetensors {dtype : Int} (h : toSafetensors dtype ≠ []) :
    fromSafetensors (toSafetensors dtype) = dtype ∧ dtype ≠ onnxUndefined := by
  obtain ⟨t, ht, hd, he⟩ := find?_dtypeTable h
  have hr := fromSafetensors_table t ht
  rw [he, ← hd]
  exact hr

end Onnxsim.Storage.Pool
