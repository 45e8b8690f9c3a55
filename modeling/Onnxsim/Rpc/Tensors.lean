import Mathlib.Algebra.BigOperators.Ring.Finset
import Onnxsim.Rpc.Protocol

namespace Onnxsim.Rpc.Tensors

open List Lib.Bytes
open Lib.Dicts
open Lib.JsonStrings
open Lib.JsonText
open Protocol
open Wire.Sockets (Delivers)

/-- The dtypes that cross the wire, with their element sizes. -/
def DTYPES : List (Str × Nat) :=
  [(str "float16", 2), (str "float32", 4), (str "float64", 8), (str "int8", 1), (str "int16", 2),
    (str "int32", 4), (str "int64", 8), (str "uint8", 1), (str "uint16", 2), (str "uint32", 4),
    (str "uint64", 8), (str "bool", 1)]

/-- An array by what its elements hold, in row-major order and as bit patterns. `dtype` is the name of its
element type; the byte order only shows in `tobytes`. -/
structure NpArray where
  dtype : Str
  itemsize : Nat
  bigEndian : Bool
  shape : List Nat
  values : List Nat
  size : values.length = shape.prod
  fits : ∀ v ∈ values, v < 256 ^ itemsize

namespace NpArray

def withOrder (a : NpArray) (bigEndian : Bool) : NpArray := { a with bigEndian := bigEndian }

theorem size_contiguous (a : NpArray) :
    a.values.length = (if a.shape = [] then [1] else a.shape).prod := by
  rw [a.size]
  split
  · next h => rw [h]; rfl
  · rfl

/-- `np.ascontiguousarray`, which has at least one axis. -/
def ascontiguousarray (a : NpArray) : NpArray :=
  { a with
    shape := if a.shape = [] then [1] else a.shape
    size := a.size_contiguous }

def tobytes (a : NpArray) : ByteString :=
  a.values.flatMap (if a.bigEndian then beBytes a.itemsize else leBytes a.itemsize)

end NpArray

variable {F : Type}

def encodeSpec (name : Str) (a : NpArray) : Json F :=
  .dict [(str "name", .str name), (str "dtype", .str a.dtype),
    (str "shape", .list (a.shape.map fun d : Nat => .int d))]

def encodeTensorSpecs : List (Str × NpArray) → Except Failure (List (Json F))
  | [] => .ok []
  | (name, a) :: rest => do
    let spec ← if a.dtype ∈ DTYPES.map Prod.fst then pure (encodeSpec name a)
      else .error (.unsupportedTensor name a.dtype)
    let specs ← encodeTensorSpecs rest
    pure (spec :: specs)

def encodeTensors (tensors : Dict Str NpArray) : Except Failure (List (Json F) × List ByteString) := do
  let specs ← encodeTensorSpecs tensors.entries
  pure (specs, tensors.entries.map fun p => (p.2.withOrder false).ascontiguousarray.tobytes)

variable {itemsize : Nat}

/-- `spec[key]` -/
def item (spec : Json F) (key : Str) : Except Failure (Json F) :=
  match spec with
  | .dict members => (getList key members).elim (.error .badSpec) .ok
  | _ => .error .badSpec

def intOf : Json F → Option Int
  | .int n => some n
  | .bool b => some (if b then 1 else 0)
  | _ => none

/-- `tuple(int(d) for d in shape)`; `other` is what that makes of anything but a list of integers. -/
def shapeOf (other : Json F → Except Failure (List Int)) (shape : Json F) : Except Failure (List Int) :=
  match shape with
  | .list items => (items.mapM intOf).elim (other (.list items)) .ok
  | j => other j

def nameOf : Json F → Except Failure Str
  | .str s => .ok s
  | _ => .error .badSpec

def dtypeOf : Json F → Except Failure (Str × Nat)
  | .str s => (getList s DTYPES).elim (.error .unsupportedDtype) fun itemsize => .ok (s, itemsize)
  | _ => .error .unsupportedDtype

def IsInt64 (n : Int) : Prop := -2 ^ 63 ≤ n ∧ n < 2 ^ 63

instance : DecidablePred IsInt64 := fun _ => inferInstanceAs (Decidable (_ ∧ _))

/-- `np.prod(shape, dtype=np.int64)` -/
def prodInt64 (shape : List Int) : Except Failure Int :=
  if ∀ d ∈ shape, IsInt64 d then .ok (Int.bmod shape.prod (2 ^ 64)) else .error .badSpec

def groups (itemsize : Nat) : Nat → ByteString → List ByteString
  | 0, _ => []
  | n + 1, blob => blob.take itemsize :: groups itemsize n (blob.drop itemsize)

/-- `np.frombuffer` with little-endian elements. -/
def frombuffer (itemsize : Nat) (blob : ByteString) : List Nat :=
  (groups itemsize (blob.length / itemsize) blob).map ofLE

theorem frombuffer_lt {blob : ByteString} : ∀ v ∈ frombuffer itemsize blob, v < 256 ^ itemsize := by
  have hgroups : ∀ n (bs : ByteString), ∀ g ∈ groups itemsize n bs, g.length ≤ itemsize := by
    intro n
    induction n with
    | zero => simp [groups]
    | succ n ih =>
      intro bs g hg
      rcases mem_cons.mp hg with rfl | hg
      · exact length_take_le _ _
      · exact ih _ g hg
  intro v hv
  obtain ⟨g, hg, rfl⟩ := List.mem_map.mp hv
  exact lt_of_lt_of_le (ofLE_lt g) (Nat.pow_le_pow_right (by decide) (hgroups _ _ g hg))

/-- `reshape` of a native array. Where every dimension is known there is one shape it can take. -/
def reshape (dtype : Str) (itemsize : Nat) (blob : ByteString) (shape : List Int) : Except Failure NpArray :=
  if h : (∀ d ∈ shape, 0 ≤ d) ∧ (frombuffer itemsize blob).length = (shape.map Int.toNat).prod then
    .ok ⟨dtype, itemsize, false, shape.map Int.toNat, frombuffer itemsize blob, h.2, frombuffer_lt⟩
  else .error .badSpec

def decodeTensor (other : Json F → Except Failure (List Int)) (spec : Json F) (blob : ByteString) :
    Except Failure (Str × NpArray) := do
  let dtype ← item spec (str "dtype")
  let dtype ← dtypeOf dtype
  let shape ← item spec (str "shape")
  let shape ← shapeOf other shape
  let count ← prodInt64 shape
  let name ← item spec (str "name")
  let name ← nameOf name
  if (blob.length : Int) ≠ count * dtype.2 then .error (.wrongLength name blob.length (count * dtype.2))
  else do
    let array ← reshape dtype.1 dtype.2 blob shape
    pure (name, array)

def decodeEach (other : Json F → Except Failure (List Int)) :
    List (Json F × ByteString) → Except Failure (List (Str × NpArray))
  | [] => .ok []
  | p :: ps => do
    let tensor ← decodeTensor other p.1 p.2
    let tensors ← decodeEach other ps
    pure (tensor :: tensors)

def decodeTensors (other : Json F → Except Failure (List Int)) (specs : List (Json F)) (blobs : List ByteString) :
    Except Failure (Dict Str NpArray) :=
  if blobs.length < specs.length then .error .fewerBlobs
  else do
    let tensors ← decodeEach other (specs.zip blobs)
    pure (Dict.empty.setAll tensors)

/-- An array of a dtype that crosses the wire, within what numpy can hold. -/
structure Supported (a : NpArray) : Prop where
  dtype : getList a.dtype DTYPES = some a.itemsize
  dims : ∀ d ∈ a.shape, d < 2 ^ 63
  count : a.values.length < 2 ^ 63

def NpArray.native (a : NpArray) : NpArray := a.withOrder false

theorem groups_flatMap (vs : List Nat) :
    groups itemsize vs.length (vs.flatMap (leBytes itemsize)) = vs.map (leBytes itemsize) := by
  induction vs with
  | nil => rfl
  | cons v vs ih =>
    have hlen := leBytes_length itemsize v
    rw [flatMap_cons, length_cons, groups, take_append_of_le_length hlen.ge,
      take_of_length_le hlen.le, drop_append_of_le_length hlen.ge, drop_of_length_le hlen.le,
      nil_append, ih, map_cons]

theorem length_flatMap_leBytes (itemsize : Nat) (vs : List Nat) :
    (vs.flatMap (leBytes itemsize)).length = vs.length * itemsize := by
  induction vs with
  | nil => simp
  | cons v vs ih =>
    rw [flatMap_cons, length_append, ih, leBytes_length, length_cons, Nat.succ_mul, Nat.add_comm]

theorem frombuffer_flatMap (hpos : 0 < itemsize) {vs : List Nat} (h : ∀ v ∈ vs, v < 256 ^ itemsize) :
    frombuffer itemsize (vs.flatMap (leBytes itemsize)) = vs := by
  have hvalue : ∀ v ∈ vs, (ofLE ∘ leBytes itemsize) v = v := fun v hv => ofLE_leBytes_of_lt (h v hv)
  rw [frombuffer, length_flatMap_leBytes, Nat.mul_div_cancel _ hpos, groups_flatMap, List.map_map,
    map_congr_left hvalue, List.map_id']

theorem tobytes_contiguous (a : NpArray) :
    (a.withOrder false).ascontiguousarray.tobytes = a.values.flatMap (leBytes a.itemsize) := rfl

theorem dtypes_nodup : (DTYPES.map Prod.fst).Nodup := by decide

variable {dtype : Str} {a : NpArray} {tensors : List (Str × NpArray)}

theorem mem_dtypes (h : getList dtype DTYPES = some itemsize) : (dtype, itemsize) ∈ DTYPES := (getList_eq_some_iff dtypes_nodup).mp h

theorem itemsize_pos (h : getList dtype DTYPES = some itemsize) : 0 < itemsize := by
  have hall : ∀ p ∈ DTYPES, 0 < p.2 := by decide
  exact hall _ (mem_dtypes h)

theorem item_dtype (name : Str) (a : NpArray) :
    item (encodeSpec name a : Json F) (str "dtype") = .ok (.str a.dtype) := by
  rfl

theorem item_shape (name : Str) (a : NpArray) :
    item (encodeSpec name a : Json F) (str "shape") = .ok (.list (a.shape.map fun d : Nat => .int d)) := by
  rfl

theorem item_name (name : Str) (a : NpArray) :
    item (encodeSpec name a : Json F) (str "name") = .ok (.str name) := by
  rfl

theorem shapeOf_ints (other : Json F → Except Failure (List Int)) (shape : List Nat) :
    shapeOf other (.list (shape.map fun d : Nat => .int d)) = .ok (shape.map fun d : Nat => (d : Int)) := by
  have hints : (shape.map fun d : Nat => (Json.int d : Json F)).mapM intOf =
      some (shape.map fun d : Nat => (d : Int)) := by
    induction shape with
    | nil => rfl
    | cons d shape ih => simp [mapM_cons, ih, intOf]
  rw [shapeOf, hints]
  rfl

theorem prodInt64_of_supported (h : Supported a) :
    prodInt64 (a.shape.map fun d : Nat => (d : Int)) = .ok (a.values.length : Int) := by
  have hdims : ∀ d ∈ a.shape.map fun d : Nat => (d : Int), IsInt64 d := by
    intro d hd
    obtain ⟨n, hn, rfl⟩ := List.mem_map.mp hd
    have hlt := h.dims n hn
    constructor <;> omega
  have hprod : (a.shape.map fun d : Nat => (d : Int)).prod = (a.values.length : Int) := by
    rw [a.size]
    exact (Nat.cast_list_prod a.shape).symm
  have hcount := h.count
  rw [prodInt64, if_pos hdims, hprod, Int.bmod_eq_of_le (by omega) (by omega)]

theorem reshape_tobytes (h : Supported a) :
    reshape a.dtype a.itemsize (a.values.flatMap (leBytes a.itemsize)) (a.shape.map fun d : Nat => (d : Int)) =
      .ok a.native := by
  have hvalues := frombuffer_flatMap (itemsize_pos h.dtype) a.fits
  have hshape : (a.shape.map fun d : Nat => (d : Int)).map Int.toNat = a.shape := by
    rw [List.map_map]
    exact List.map_id _
  have hdims : (∀ d ∈ a.shape.map fun d : Nat => (d : Int), 0 ≤ d) ∧
      (frombuffer a.itemsize (a.values.flatMap (leBytes a.itemsize))).length =
        ((a.shape.map fun d : Nat => (d : Int)).map Int.toNat).prod := by
    refine ⟨?_, by rw [hvalues, hshape, a.size]⟩
    intro d hd
    obtain ⟨n, -, rfl⟩ := List.mem_map.mp hd
    exact Int.natCast_nonneg n
  rw [reshape, dif_pos hdims]
  simp only [hvalues, hshape]
  rfl

theorem decodeTensor_encode (other : Json F → Except Failure (List Int)) (name : Str) (h : Supported a) :
    decodeTensor other (encodeSpec name a) (a.withOrder false).ascontiguousarray.tobytes =
      .ok (name, a.native) := by
  have hdtype : dtypeOf (.str a.dtype : Json F) = .ok (a.dtype, a.itemsize) := by
    rw [dtypeOf, h.dtype]
    rfl
  have hlen : ¬ ((a.values.flatMap (leBytes a.itemsize)).length : Int) ≠
      (a.values.length : Int) * a.itemsize := by
    rw [length_flatMap_leBytes, Nat.cast_mul]
    exact not_not.mpr rfl
  have hname : nameOf (.str name : Json F) = .ok name := rfl
  rw [decodeTensor, tobytes_contiguous, item_dtype]
  simp only [bind, Except.bind, hdtype, item_shape, shapeOf_ints, prodInt64_of_supported h, item_name, hname,
    if_neg hlen, reshape_tobytes h]
  rfl

theorem encodeTensorSpecs_eq (h : ∀ p ∈ tensors, Supported p.2) :
    encodeTensorSpecs tensors = .ok (tensors.map fun p => (encodeSpec p.1 p.2 : Json F)) := by
  induction tensors with
  | nil => rfl
  | cons p tensors ih =>
    obtain ⟨name, a⟩ := p
    obtain ⟨ha, htensors⟩ := forall_mem_cons.mp h
    have hmem : a.dtype ∈ DTYPES.map Prod.fst := List.mem_map_of_mem (mem_dtypes ha.dtype)
    rw [encodeTensorSpecs, if_pos hmem, ih htensors]
    rfl

theorem decodeEach_eq (other : Json F → Except Failure (List Int)) (h : ∀ p ∈ tensors, Supported p.2) :
    decodeEach other ((tensors.map fun p => encodeSpec p.1 p.2).zip
      (tensors.map fun p => (p.2.withOrder false).ascontiguousarray.tobytes)) =
      .ok (tensors.map fun p => (p.1, p.2.native)) := by
  induction tensors with
  | nil => rfl
  | cons p tensors ih =>
    obtain ⟨ha, htensors⟩ := forall_mem_cons.mp h
    rw [map_cons, map_cons, zip_cons_cons, decodeEach, decodeTensor_encode other p.1 ha, ih htensors]
    rfl

theorem decodeTensors_encodeTensors (other : Json F → Except Failure (List Int)) {tensors : Dict Str NpArray}
    (h : ∀ p ∈ tensors.entries, Supported p.2) :
    ∃ specs blobs, encodeTensors tensors = .ok (specs, blobs) ∧
      decodeTensors other specs blobs = .ok (tensors.mapVals NpArray.native) := by
  refine ⟨_, _, by rw [encodeTensors, encodeTensorSpecs_eq h]; rfl, ?_⟩
  have hentries : (Dict.empty.setAll (tensors.entries.map fun p => (p.1, p.2.native))).entries =
      (tensors.mapVals NpArray.native).entries :=
    Dict.entries_setAll (d := Dict.empty) (tensors.mapVals NpArray.native).nodup
  rw [decodeTensors, if_neg (by simp), decodeEach_eq other h]
  exact congrArg Except.ok (Dict.ext hentries)

def NpArray.contents (a : NpArray) : Str × List Nat × List Nat := (a.dtype, a.shape, a.values)

def contents (tensors : Dict Str NpArray) : List (Str × Str × List Nat × List Nat) :=
  tensors.entries.map fun p => (p.1, p.2.contents)

theorem contents_native (tensors : Dict Str NpArray) :
    contents (tensors.mapVals NpArray.native) = contents tensors := by
  simp only [contents, Dict.mapVals, List.map_map]
  rfl

def halfText : FloatText Unit where
  repr _ := ⟨false, ['0'], ['5'], none, ⟨rfl, by simp [IsDigits]⟩, by simp [IsDigits], by simp, by simp⟩
  float _ := .finite ()
  float_repr _ := rfl

def halfMessage : Json Unit × List ByteString :=
  (.dict [(str "op", .str (str "run")), (str "scale", .float (.finite ()))], [[], [1, 2]])

theorem halfMessage_fits : Fits halfText 4 halfMessage where
  header := by
    exact ⟨by decide, joined_str _, joined_str _, joined_str _, trivial, trivial⟩
  headerBytes := by decide
  blobCount := by decide
  blobBytes := by decide

def scalar : Dict Str NpArray :=
  Dict.empty.set (str "x") ⟨str "int8", 1, true, [], [7], rfl, by decide⟩

theorem scalar_supported : ∀ p ∈ scalar.entries, Supported p.2 := by
  intro p hp
  rw [mem_singleton.mp hp]
  exact ⟨rfl, by simp, by decide⟩

end Onnxsim.Rpc.Tensors
