import Onnxsim.Lib.Readers
import Onnxsim.Storage.Pool

namespace Onnxsim.Storage.GgufTypes

/-- The ggml element types that `gguf_dtype.h` knows. -/
inductive GgmlType where
  | f32 | f16 | q4_0 | q4_1 | q5_0 | q5_1 | q8_0 | q2_K | q3_K | q4_K | q5_K | q6_K
  | i8 | i16 | i32 | i64 | f64 | bf16 | mxfp4
  deriving DecidableEq

def code : GgmlType → Nat
  | .f32 => 0
  | .f16 => 1
  | .q4_0 => 2
  | .q4_1 => 3
  | .q5_0 => 6
  | .q5_1 => 7
  | .q8_0 => 8
  | .q2_K => 10
  | .q3_K => 11
  | .q4_K => 12
  | .q5_K => 13
  | .q6_K => 14
  | .i8 => 24
  | .i16 => 25
  | .i32 => 26
  | .i64 => 27
  | .f64 => 28
  | .bf16 => 30
  | .mxfp4 => 39

def allTypes : List GgmlType :=
  [.f32, .f16, .q4_0, .q4_1, .q5_0, .q5_1, .q8_0, .q2_K, .q3_K, .q4_K, .q5_K, .q6_K, .i8, .i16,
   .i32, .i64, .f64, .bf16, .mxfp4]

/-- A `ggml_type` read from a file; every other number falls to the switches' defaults. -/
def ofCode (n : Nat) : Option GgmlType := allTypes.find? (fun t => code t = n)

def elementSize : GgmlType → Nat
  | .i8 => 1
  | .f16 | .bf16 | .i16 => 2
  | .f32 | .i32 => 4
  | .f64 | .i64 => 8
  | _ => 0

def isRaw (t : GgmlType) : Bool := elementSize t != 0

def isKQuant : GgmlType → Bool
  | .q2_K | .q3_K | .q4_K | .q5_K | .q6_K | .q8_0 => true
  | _ => false

def kQuantBlockElements : GgmlType → Nat
  | .q8_0 => 32
  | .q2_K | .q3_K | .q4_K | .q5_K | .q6_K => 256
  | _ => 0

def kQuantBlockBytes : GgmlType → Nat
  | .q8_0 => 34
  | .q2_K => 84
  | .q3_K => 110
  | .q4_K => 144
  | .q5_K => 176
  | .q6_K => 210
  | _ => 0

def isMxfp4 (t : GgmlType) : Bool := t == .mxfp4

def mxfp4BlockElements (t : GgmlType) : Nat := if isMxfp4 t then 32 else 0

def mxfp4BlockBytes (t : GgmlType) : Nat := if isMxfp4 t then 17 else 0

def isLegacyQuant : GgmlType → Bool
  | .q4_0 | .q4_1 | .q5_0 | .q5_1 => true
  | _ => false

def legacyQuantBlockElements (t : GgmlType) : Nat := if isLegacyQuant t then 32 else 0

def legacyQuantBlockBytes : GgmlType → Nat
  | .q4_0 => 18
  | .q4_1 => 20
  | .q5_0 => 22
  | .q5_1 => 24
  | _ => 0

def toOnnx : GgmlType → Int
  | .f32 => 1
  | .f16 => 10
  | .bf16 => 16
  | .f64 => 11
  | .i8 => 3
  | .i16 => 5
  | .i32 => 6
  | .i64 => 7
  | .q4_K => 10001
  | .q5_K => 10002
  | .q6_K => 10003
  | .q8_0 => 10004
  | .q2_K => 10010
  | .q3_K => 10011
  | .mxfp4 => 10005
  | .q4_0 => 10006
  | .q4_1 => 10007
  | .q5_0 => 10008
  | .q5_1 => 10009

def fromOnnxTable : List (Int × GgmlType) :=
  [(1, .f32), (10, .f16), (16, .bf16), (11, .f64), (3, .i8), (5, .i16), (6, .i32), (7, .i64),
   (10001, .q4_K), (10002, .q5_K), (10003, .q6_K), (10004, .q8_0), (10010, .q2_K), (10011, .q3_K),
   (10005, .mxfp4), (10006, .q4_0), (10007, .q4_1), (10008, .q5_0), (10009, .q5_1)]

def fromOnnx (dtype : Int) : Option GgmlType :=
  (fromOnnxTable.find? (fun p => p.1 = dtype)).map Prod.snd

def blockBytesOf (elems bytes nelems : Nat) : Option Nat :=
  if nelems % elems ≠ 0 then none else some (nelems / elems * bytes % 2 ^ 64)

def tryTotalBytes (t : GgmlType) (nelems : Nat) : Option Nat :=
  if isRaw t then some (nelems * elementSize t % 2 ^ 64)
  else if isKQuant t then blockBytesOf (kQuantBlockElements t) (kQuantBlockBytes t) nelems
  else if isMxfp4 t then blockBytesOf (mxfp4BlockElements t) (mxfp4BlockBytes t) nelems
  else if isLegacyQuant t then
    blockBytesOf (legacyQuantBlockElements t) (legacyQuantBlockBytes t) nelems
  else none

/-- How many elements one stored block of this type holds, and in how many bytes. -/
def block (t : GgmlType) : Nat × Nat :=
  if isRaw t then (1, elementSize t)
  else if isKQuant t then (kQuantBlockElements t, kQuantBlockBytes t)
  else if isMxfp4 t then (mxfp4BlockElements t, mxfp4BlockBytes t)
  else (legacyQuantBlockElements t, legacyQuantBlockBytes t)

theorem tryTotalBytes_eq (t : GgmlType) (n : Nat) :
    tryTotalBytes t n = blockBytesOf (block t).1 (block t).2 n := by
  cases t <;> simp [tryTotalBytes, block, blockBytesOf, isRaw, elementSize, isKQuant, isMxfp4,
    isLegacyQuant, Nat.mod_one]

theorem block_pos (t : GgmlType) : 0 < (block t).1 ∧ 0 < (block t).2 := by
  cases t <;> decide

theorem toOnnx_fromOnnx {dtype : Int} {t : GgmlType} (h : fromOnnx dtype = some t) :
    toOnnx t = dtype := by
  have htable : ∀ p ∈ fromOnnxTable, toOnnx p.2 = p.1 := by decide
  obtain ⟨p, hp, rfl⟩ := Option.map_eq_some_iff.mp h
  have hd : p.1 = dtype := by simpa using List.find?_some hp
  rw [htable p (List.mem_of_find?_eq_some hp), hd]

theorem fromOnnx_toOnnx (t : GgmlType) : fromOnnx (toOnnx t) = some t := by
  cases t <;> decide

theorem ofCode_code (t : GgmlType) : ofCode (code t) = some t := by
  cases t <;> decide

theorem code_lt (t : GgmlType) : code t < 256 := by
  cases t <;> decide

end Onnxsim.Storage.GgufTypes

namespace Onnxsim.Storage.Gguf

open Lib.Bytes Lib.OrderedMaps Lib.Readers Pool
open GgufTypes

def kMagic : Nat := 0x46554747
def kSupportedVersion : Nat := 3
def kDefaultAlignment : Nat := 32
def kMaxStringLen : Nat := 2 ^ 30
def kMaxTensorCount : Nat := 10000000
def kMaxMetadataCount : Nat := 10000000
def kMaxDims : Nat := 8
def typeString : Nat := 8
def typeArray : Nat := 9

abbrev StringMap := SortedMap ByteString ByteString

def alignUp (v align : Nat) : Nat :=
  if align = 0 then v
  else if v % align = 0 then v
  else (v + (align - v % align)) % 2 ^ 64

def ggufString (s : ByteString) : ByteString := leBytes 8 s.length ++ s

def placeFrom : Nat → List (ByteString × Entry) → List (ByteString × Entry × Nat × Nat)
  | _, [] => []
  | running, (name, entry) :: rest =>
    let beginOff := alignUp running kDefaultAlignment
    let endOff := (beginOff + entry.data.length) % 2 ^ 64
    (name, entry, beginOff, endOff) :: placeFrom endOff rest

def metadataBytes (p : ByteString × ByteString) : ByteString :=
  ggufString p.1 ++ leBytes 4 typeString ++ ggufString p.2

def infoBytes (name : ByteString) (entry : Entry) (beginOff : Nat) : ByteString :=
  ggufString name ++ leBytes 4 entry.shape.length ++
    (entry.shape.reverse.flatMap fun d => leBytes 8 d.toUInt64.toNat) ++
    leBytes 4 (((fromOnnx entry.dtype).map code).getD 0) ++ leBytes 8 beginOff

def headerBytes (pool : TensorPool) (metadata : StringMap) : ByteString :=
  leBytes 4 kMagic ++ leBytes 4 kSupportedVersion ++ leBytes 8 pool.entries.length ++
    leBytes 8 metadata.entries.length ++ metadata.entries.flatMap metadataBytes ++
    (placeFrom 0 pool.entries).flatMap fun t => infoBytes t.1 t.2.1 t.2.2.1

def writePadding (n : Nat) : ByteString := List.replicate n 0

/-- The data section, from `write_pos` on. -/
def dataFrom : Nat → List (ByteString × Entry × Nat × Nat) → ByteString
  | _, [] => []
  | writePos, (_, entry, beginOff, endOff) :: rest =>
    writePadding ((beginOff + (2 ^ 64 - writePos)) % 2 ^ 64) ++ entry.data ++ dataFrom endOff rest

def dataSectionStart (pool : TensorPool) (metadata : StringMap) : Nat :=
  alignUp (headerBytes pool metadata).length kDefaultAlignment

def fileBytes (pool : TensorPool) (metadata : StringMap) : ByteString :=
  headerBytes pool metadata ++
    writePadding (dataSectionStart pool metadata - (headerBytes pool metadata).length) ++
    dataFrom 0 (placeFrom 0 pool.entries)

structure Saved where
  file : ByteString
  dataOffsets : SortedMap ByteString (Nat × Nat)
  dataStart : Nat

def saveGGUF (pool : TensorPool) (path : String) (metadata : StringMap) : Except String Saved :=
  match pool.entries.find? (fun p => fromOnnx p.2.dtype = none) with
  | some (name, entry) =>
    .error ("TensorPool::SaveGGUF: tensor '" ++ textOf name ++ "' has an ONNX dtype (" ++
      toString entry.dtype ++ ") with no raw ggml_type representation")
  | none =>
    if maxFileSize ≤ (fileBytes pool metadata).length then
      .error ("TensorPool::SaveGGUF: write failed for '" ++ path ++ "'")
    else .ok
      { file := fileBytes pool metadata
        dataOffsets := (placeFrom 0 pool.entries).foldl
          (fun m t => m.insert t.1 (t.2.2.1, t.2.2.2)) .empty
        dataStart := dataSectionStart pool metadata }

abbrev FileReader (α : Type) := Reader Byte String α

def failRead {α : Type} (path what : String) : FileReader α := fun _ =>
  .error ("TensorPool::LoadGGUF: '" ++ path ++ "': " ++ what)

def readBytes (path what : String) (n : Nat) : FileReader ByteString := fun c =>
  if c.rest.length < n then failRead path what c
  else .ok (c.rest.take n, ⟨c.pos + n, c.rest.drop n⟩)

/-- `ReadU32LE` and `ReadU64LE`, at 4 and 8 bytes. -/
def readLE (path : String) (k : Nat) : FileReader Nat := do
  let bytes ← readBytes path "unexpected end of file" k
  pure (ofLE bytes)

def readGGUFString (path : String) : FileReader ByteString := do
  let len ← readLE path 8
  if kMaxStringLen < len then
    failRead path ("implausibly long string (len=" ++ toString len ++
      "), file is likely corrupt")
  else readBytes path "unexpected end of file while reading a string" len

def fixedMetadataScalarSize (valueType : Nat) : Nat :=
  if valueType = 0 ∨ valueType = 1 ∨ valueType = 7 then 1
  else if valueType = 2 ∨ valueType = 3 then 2
  else if valueType = 4 ∨ valueType = 5 ∨ valueType = 6 then 4
  else if valueType = 10 ∨ valueType = 11 ∨ valueType = 12 then 8
  else 0

/-- `in.seekg(static_cast<std::streamoff>(off), std::ios::cur)`; a position past the end is
accepted and the next read fails. -/
def seekCur (file : ByteString) (path : String) (off : Nat) : FileReader Unit := fun c =>
  let target : Int := c.pos + (Int64.ofNat off).toInt
  if target < 0 ∨ 2 ^ 63 ≤ target then failRead path "truncated metadata array" c
  else .ok ((), ⟨target.toNat, file.drop target.toNat⟩)

def skipArray (file : ByteString) (path : String) : FileReader Unit := do
  let elemType ← readLE path 4
  let len ← readLE path 8
  if elemType = typeArray then failRead path "nested metadata arrays are not supported"
  else if elemType = typeString then
    let _ ← readMany (readGGUFString path) len
    pure ()
  else if fixedMetadataScalarSize elemType = 0 then
    failRead path ("unknown metadata array element type " ++ toString elemType)
  else seekCur file path (fixedMetadataScalarSize elemType * len)

def skipMetadataValue (file : ByteString) (path : String) (valueType : Nat) :
    FileReader (Option Nat) :=
  if valueType = typeString then do
    let _ ← readGGUFString path
    pure none
  else if valueType = typeArray then do
    skipArray file path
    pure none
  else if fixedMetadataScalarSize valueType = 0 then
    failRead path ("unknown metadata value type " ++ toString valueType)
  else do
    let bytes ← readBytes path "truncated metadata value" (fixedMetadataScalarSize valueType)
    pure (if valueType = 0 ∨ valueType = 2 ∨ valueType = 4 ∨ valueType = 10 then
      some (ofLE bytes) else none)

/-- A decoded value; a float keeps its bits, which a `double` holds exactly. -/
inductive MetadataValue where
  | int (v : Int64)
  | float32 (bits : Nat)
  | float64 (bits : Nat)
  | string (s : ByteString)
  | bool (b : Bool)
  deriving DecidableEq

def signExtend (bits raw : Nat) : Int64 :=
  if raw < 2 ^ (bits - 1) then Int64.ofNat raw else Int64.ofInt ((raw : Int) - 2 ^ bits)

def decodeScalarMetadataValue (path : String) (valueType : Nat) : FileReader MetadataValue :=
  if fixedMetadataScalarSize valueType = 0 then
    failRead path ("unknown metadata value type " ++ toString valueType)
  else do
    let bytes ← readBytes path "truncated metadata value" (fixedMetadataScalarSize valueType)
    let raw := ofLE bytes
    pure (if valueType = 7 then .bool (raw != 0)
      else if valueType = 6 then .float32 raw
      else if valueType = 12 then .float64 raw
      else if valueType = 1 then .int (signExtend 8 raw)
      else if valueType = 3 then .int (signExtend 16 raw)
      else if valueType = 5 then .int (signExtend 32 raw)
      else .int (Int64.ofNat raw))

def readOneMetadataValue (file : ByteString) (path : String) (valueType : Nat) :
    FileReader (Option MetadataValue) :=
  if valueType = typeString then do
    let s ← readGGUFString path
    pure (some (.string s))
  else if valueType = typeArray then do
    skipArray file path
    pure none
  else do
    let v ← decodeScalarMetadataValue path valueType
    pure (some v)

structure TensorInfo where
  name : ByteString
  ne : List Nat
  ggmlType : Nat
  offset : Nat
  deriving DecidableEq

def readTensorInfo (path : String) : FileReader TensorInfo := do
  let name ← readGGUFString path
  let nDims ← readLE path 4
  if kMaxDims < nDims then
    failRead path ("tensor '" ++ textOf name ++ "' has an implausible dimension count (" ++
      toString nDims ++ ")")
  else do
    let ne ← readMany (readLE path 8) nDims
    let ggmlType ← readLE path 4
    let offset ← readLE path 8
    pure ⟨name, ne, ggmlType, offset⟩

/-- Magic, version and the two counts, checked before anything is sized by them. -/
def readCounts (path : String) : FileReader (Nat × Nat) := do
  let magic ← readLE path 4
  if magic ≠ kMagic then failRead path "not a GGUF file (bad magic)"
  else do
    let version ← readLE path 4
    if version ≠ kSupportedVersion then
      failRead path ("GGUF version " ++ toString version ++
        " is not supported (only version " ++ toString kSupportedVersion ++ " is)")
    else do
      let tensorCount ← readLE path 8
      let metadataKvCount ← readLE path 8
      if kMaxTensorCount < tensorCount then
        failRead path ("implausible tensor_count (" ++ toString tensorCount ++ "), likely corrupt")
      else if kMaxMetadataCount < metadataKvCount then
        failRead path ("implausible metadata_kv_count (" ++ toString metadataKvCount ++
          "), likely corrupt")
      else pure (tensorCount, metadataKvCount)

def readAlignment (file : ByteString) (path : String) : Nat → Nat → FileReader Nat
  | 0, alignment => pure alignment
  | n + 1, alignment => do
    let key ← readGGUFString path
    let valueType ← readLE path 4
    let numeric ← skipMetadataValue file path valueType
    readAlignment file path n
      (if key = ascii "general.alignment" ∧ numeric.getD 0 ≠ 0 then numeric.getD 0 else alignment)

/-- The header of `LoadGGUF`: the tensor infos and the start of the data section. -/
def readHeader (file : ByteString) (path : String) : FileReader (List TensorInfo × Nat) := do
  let counts ← readCounts path
  let alignment ← readAlignment file path counts.2 kDefaultAlignment
  let infos ← readMany (readTensorInfo path) counts.1
  fun c => .ok ((infos, alignUp c.pos alignment), c)

def onnxShape (ne : List Nat) : List Int64 := ne.reverse.map fun n => (UInt64.ofNat n).toInt64

def elementCount (ne : List Nat) : Nat := ne.foldl (fun acc d => acc * d % 2 ^ 64) 1

/-- The loop of `LoadGGUF` over the tensor infos, with the names it skips. -/
def addInfos (path : String) (file : ByteString) (dataStart : Nat) : List TensorInfo →
    List ByteString → TensorPool → Except String (List ByteString) × TensorPool
  | [], skipped, pool => (.ok skipped, pool)
  | info :: rest, skipped, pool =>
    match ofCode info.ggmlType with
    | none => addInfos path file dataStart rest (skipped ++ [info.name]) pool
    | some t =>
      match tryTotalBytes t (elementCount info.ne) with
      | none =>
        (.error ("TensorPool::LoadGGUF: '" ++ path ++ "': tensor '" ++ textOf info.name ++
          "' element count is not a multiple of its quantization block size"), pool)
      | some nbytes =>
        let absOffset := (dataStart + info.offset) % 2 ^ 64
        if file.length < absOffset ∨ file.length - absOffset < nbytes then
          (.error ("TensorPool::LoadGGUF: '" ++ path ++ "': tensor '" ++ textOf info.name ++
            "' data range extends past the end of the file"), pool)
        else
          addInfos path file dataStart rest skipped (pool.insert info.name
            ⟨toOnnx t, onnxShape info.ne, (file.drop absOffset).take nbytes⟩)

def loadGGUF (pool : TensorPool) (path : String) (file : ByteString) :
    Except String (List ByteString) × TensorPool :=
  match readHeader file path ⟨0, file⟩ with
  | .error e => (.error e, pool)
  | .ok ((infos, dataStart), _) => addInfos path file dataStart infos [] .empty

def readKv (file : ByteString) (path : String) : Nat → SortedMap ByteString MetadataValue →
    FileReader (SortedMap ByteString MetadataValue)
  | 0, kv => pure kv
  | n + 1, kv => do
    let key ← readGGUFString path
    let valueType ← readLE path 4
    let value ← readOneMetadataValue file path valueType
    readKv file path n (match value with
      | some v => kv.insert key v
      | none => kv)

structure GGUFTensorInfo where
  name : ByteString
  shape : List Int64
  ggmlType : Nat
  deriving DecidableEq

structure GGUFMetadata where
  kv : SortedMap ByteString MetadataValue
  tensors : List GGUFTensorInfo

def readMetadata (file : ByteString) (path : String) : FileReader GGUFMetadata := do
  let counts ← readCounts path
  let kv ← readKv file path counts.2 .empty
  let infos ← readMany (readTensorInfo path) counts.1
  pure ⟨kv, infos.map fun i => ⟨i.name, onnxShape i.ne, i.ggmlType⟩⟩

def readGGUFMetadata (path : String) (file : ByteString) : Except String GGUFMetadata :=
  match readMetadata file path ⟨0, file⟩ with
  | .error e => .error e
  | .ok (m, _) => .ok m

end Onnxsim.Storage.Gguf
