import Onnxsim.Storage.ArchiveTrip
import Onnxsim.Storage.Safetensors

namespace Onnxsim.Storage.Standalone

open Lib.Bytes Lib.OrderedMaps Pool Archive
open Safetensors Traversal

/-- The file under the archive's path before a save, and where the file system fails in it: whether the file
opens for writing, how many bytes it takes, whether it opens again for its header and for the patch, and how
many bytes of the patch it takes. -/
structure Disk where
  file : Option ByteString
  opens : Bool
  room : Nat
  room_lt : room < maxFileSize
  reads : Bool
  reopens : Bool
  patched : Nat

abbrev Offsets := SortedMap ByteString (Nat × Nat)

def offsetsOf (pool : TensorPool) : Offsets :=
  .ofList ((offsetsFrom 0 pool.entries).map fun t => (t.1, (t.2.2.1, t.2.2.2)))

/-- `SaveSafetensors` on a disk that may fail: `data_offsets_out`, and the file it leaves. -/
def writeArchive (disk : Disk) (pool : TensorPool) (path : ByteString) : Except String Offsets × Option ByteString :=
  match pool.entries.find? (fun p => toSafetensors p.2.dtype = []) with
  | some (name, entry) =>
    (.error ("TensorPool::SaveSafetensors: tensor '" ++ textOf name ++ "' has an ONNX dtype (" ++
      toString entry.dtype ++ ") with no safetensors representation"), disk.file)
  | none =>
    if !disk.opens then
      (.error ("TensorPool::SaveSafetensors: cannot open '" ++ textOf path ++ "' for writing"), disk.file)
    else if disk.room < (fileBytes pool).length then
      (.error ("TensorPool::SaveSafetensors: write failed for '" ++ textOf path ++ "'"),
        some ((fileBytes pool).take disk.room))
    else (.ok (offsetsOf pool), some (fileBytes pool))

def headerPrefixSize (disk : Disk) (file : ByteString) (path : ByteString) : Except String Nat :=
  if !disk.reads then .error ("tensor_pool::HeaderPrefixSize: cannot open '" ++ textOf path ++ "'")
  else if file.length < 8 then
    .error ("tensor_pool::HeaderPrefixSize: '" ++ textOf path ++ "' is too small to be a safetensors file")
  else .ok ((8 + ofLE (file.take 8)) % 2 ^ 64)

def overwrite (file : ByteString) (offset : Nat) (bytes : ByteString) : ByteString :=
  file.take offset ++ bytes ++ file.drop (offset + bytes.length)

def patchFileBytes (disk : Disk) (file : ByteString) (path : ByteString) (offset : Nat) (bytes : ByteString) :
    Except String Unit × ByteString :=
  if !disk.reopens then
    (.error ("TensorPool: cannot reopen '" ++ textOf path ++ "' to patch the embedded model's bytes"), file)
  else if disk.patched < bytes.length then
    (.error ("TensorPool: failed to patch the embedded model's bytes into '" ++ textOf path ++ "'"),
      overwrite file offset (bytes.take disk.patched))
  else (.ok (), overwrite file offset bytes)

def kOffsetFieldWidth : Nat := 20

/-- `FixedWidthDecimal`, whose width every `uint64_t` keeps. -/
def fixedWidthDecimal (v : Nat) : ByteString :=
  List.replicate (kOffsetFieldWidth - (decimal v).length) 48 ++ decimal v

/-- Tensor bytes that a caller has stripped from the model, by pool key. -/
abbrev ExternalBytes := SortedMap ByteString ByteString

/-- The bytes that a tensor gives to the pool, and what is left of the caller's own bytes. -/
def take (external : Option ExternalBytes) (name : ByteString) (t : TensorProto) :
    Option (ByteString × Option ExternalBytes) :=
  match external with
  | none => (adoptable t).map fun bytes => (bytes, none)
  | some held => (held.find? name).map fun bytes => (bytes, some (held.erase name))

/-- A traversal that adopts tensors; `adopted` says for each tensor visited under which key it was. -/
structure Adoption where
  pool : TensorPool
  external : Option ExternalBytes
  adopted : List (Option ByteString)

def adoptTensor (mark : TensorProto → TensorProto) (name : ByteString) (t : TensorProto) (s : Adoption) :
    TensorProto × Adoption :=
  match take s.external name t with
  | none => (t, { s with adopted := s.adopted ++ [none] })
  | some (bytes, external) =>
    (mark { t with rawData := none },
      ⟨s.pool.insert name ⟨t.dataType, t.dims, bytes⟩, external, s.adopted ++ [some name]⟩)

def setExternal (path offset length : ByteString) (t : TensorProto) : TensorProto :=
  { t with
    dataLocation := .external
    externalData := [(ascii "location", path), (ascii "offset", offset), (ascii "length", length)] }

/-- `AdoptAllWithPlaceholderOffsets`. -/
def adoptAllWithPlaceholderOffsets (g : GraphProto) (path : ByteString) (pool : TensorPool)
    (external : Option ExternalBytes) : GraphProto × Adoption :=
  forEachTensor (adoptTensor (setExternal path (fixedWidthDecimal 0) (fixedWidthDecimal 0))) g ⟨pool, external, []⟩

/-- One more visit of the tensors that changes the adopted ones. -/
def markTensor (mark : ByteString → TensorProto → TensorProto) (_ : ByteString) (t : TensorProto)
    (adopted : List (Option ByteString)) : TensorProto × List (Option ByteString) :=
  (match adopted.head?.join with
    | some key => mark key t
    | none => t, adopted.tail)

def range (offsets : Offsets) (key : ByteString) : Nat × Nat := (offsets.find? key).getD (0, 0)

/-- The body of `PatchStandaloneOffsets`. -/
def patchOffsets (offsets : Offsets) (dataSectionStart : Nat) (name : ByteString) (t : TensorProto) : TensorProto :=
  { t with externalData := t.externalData.map fun e =>
      if e.1 = ascii "offset" then (e.1, fixedWidthDecimal ((dataSectionStart + (range offsets name).1) % 2 ^ 64))
      else if e.1 = ascii "length" then
        (e.1, fixedWidthDecimal (((range offsets name).2 + 2 ^ 64 - (range offsets name).1) % 2 ^ 64))
      else e }

/-- What a save leaves behind, thrown out of or not: the caller's model and pool, and the file. -/
structure Outcome where
  model : ModelProto
  pool : TensorPool
  file : Option ByteString
  result : Except String Unit

variable (serialize : ModelProto → Option ByteString) (disk : Disk) (m : ModelProto) (path : ByteString)
  (pool : TensorPool)

def modelEntry (blob : ByteString) : Entry := ⟨onnxInt8, [Int64.ofNat blob.length], blob⟩

/-- The rest of `SaveModelAsSafetensorsStandalone` once the archive is written. -/
def finishStandalone (placeholder : ModelProto) (adopted : List (Option ByteString)) (pool : TensorPool)
    (placeholderBytes file : ByteString) (offsets : Offsets) : Outcome :=
  match headerPrefixSize disk file path with
  | .error e => ⟨placeholder, pool, some file, .error e⟩
  | .ok start =>
    let final : ModelProto :=
      { placeholder with graph := (forEachTensor (markTensor (patchOffsets offsets start)) placeholder.graph adopted).1 }
    match serialize final with
    | none => ⟨final, pool, some file, .error ("TensorPool: SaveModelAsSafetensorsStandalone: failed to " ++
        "re-serialize the model")⟩
    | some finalBytes =>
      if finalBytes.length ≠ placeholderBytes.length then
        ⟨final, pool, some file, .error ("TensorPool: SaveModelAsSafetensorsStandalone: internal error -- " ++
          "re-serializing with real offsets changed the model's size (" ++ toString placeholderBytes.length ++
          " -> " ++ toString finalBytes.length ++ " bytes)")⟩
      else
        match patchFileBytes disk file path (start + (range offsets kEmbeddedModelKey).1) finalBytes with
        | (.error e, file) => ⟨final, pool, some file, .error e⟩
        | (.ok (), file) => ⟨final, pool.insert kEmbeddedModelKey (modelEntry finalBytes), some file, .ok ()⟩

/-- `SaveModelAsSafetensorsStandalone`, with protobuf's serializer as a parameter. -/
def saveModelAsSafetensorsStandalone (external : Option ExternalBytes) : Outcome :=
  let r := adoptAllWithPlaceholderOffsets m.graph path pool external
  let placeholder : ModelProto := { m with graph := r.1 }
  if (r.2.pool.find? kEmbeddedModelKey).isSome then
    ⟨placeholder, r.2.pool, disk.file, .error ("TensorPool: a tensor is already named '" ++
      textOf kEmbeddedModelKey ++ "', which collides with the reserved key this archive format " ++
      "embeds the graph itself under; rename that tensor before embedding")⟩
  else
    match serialize placeholder with
    | none => ⟨placeholder, r.2.pool, disk.file, .error ("TensorPool: SaveModelAsSafetensorsStandalone: " ++
        "failed to serialize the model")⟩
    | some blob =>
      let pool := r.2.pool.insert kEmbeddedModelKey (modelEntry blob)
      match writeArchive disk pool path with
      | (.error e, file) => ⟨placeholder, pool, file, .error e⟩
      | (.ok offsets, file) =>
        finishStandalone serialize disk path placeholder r.2.adopted pool blob (file.getD []) offsets

/-- `ExportModelWithSafetensors`; the tensors it has adopted keep no reference until it ends. -/
def exportModelWithSafetensors : Outcome :=
  let r := forEachTensor (adoptTensor id) m.graph ⟨pool, none, []⟩
  match writeArchive disk r.2.pool path with
  | (.error e, file) => ⟨{ m with graph := r.1 }, r.2.pool, file, .error e⟩
  | (.ok offsets, file) =>
    match headerPrefixSize disk (file.getD []) path with
    | .error e => ⟨{ m with graph := r.1 }, r.2.pool, file, .error e⟩
    | .ok start =>
      let mark := fun name => setExternal path (decimal ((start + (range offsets name).1) % 2 ^ 64))
        (decimal (((range offsets name).2 + 2 ^ 64 - (range offsets name).1) % 2 ^ 64))
      ⟨{ m with graph := (forEachTensor (markTensor mark) r.1 r.2.adopted).1 }, r.2.pool, file, .ok ()⟩

/-- `EmbedModel` with what it leaves behind when it throws. -/
def embedOutcome : Outcome :=
  let r := forEachTensor (embedTensor path) m.graph pool
  let done := embedModel serialize m path pool
  ⟨{ m with graph := r.1 }, (done.toOption.map Prod.snd).getD r.2, disk.file, done.map fun _ => ()⟩

def record (t : TensorProto) (key : String) : Option ByteString :=
  (t.externalData.find? fun e => e.1 = ascii key).map Prod.snd

/-- The bytes that an external tensor's record names in its file, which is empty if it is not there. -/
def referenced (file : Option ByteString) (t : TensorProto) : Option ByteString :=
  let file := file.getD []
  let offset := digitsValue ((record t "offset").getD [])
  let length := ((record t "length").map digitsValue).getD (file.length - offset)
  if offset + length ≤ file.length then some ((file.drop offset).take length) else none

/-- The tensor's bytes are in the file, where its record says. -/
def Refers (path : ByteString) (file : Option ByteString) (bytes : ByteString) (t : TensorProto) : Prop :=
  t.dataLocation = .external ∧ record t "location" = some path ∧ referenced file t = some bytes

def Holds (path : ByteString) (file : Option ByteString) (bytes : ByteString) (t : TensorProto) : Prop :=
  (t.dataLocation = .default ∧ t.rawData.getD [] = bytes) ∨ Refers path file bytes t

def moved (external : Option ExternalBytes) (p : Keyed) : Option ByteString := (take external p.1 p.2).map Prod.fst

/-- A save leaves alone every tensor that it moves no bytes out of, and the others as `R` says. -/
def Leaves (R : ByteString → TensorProto → Prop) (external : Option ExternalBytes) (m m' : ModelProto) : Prop :=
  List.Forall₂ (fun p t => match moved external p with
    | none => t = p.2
    | some bytes => R bytes t) (visited m.graph) (tensorsOf (visited m'.graph))

/-- After a failure every tensor has its bytes or a reference to them. -/
def LosesNothing (path : ByteString) (external : Option ExternalBytes) (m : ModelProto) (o : Outcome) : Prop :=
  (∃ e, o.result = .error e) → Leaves (Holds path o.file) external m o.model

/-- The file is the archive of a pool that ends with the model as it was serialized, and that model's records
find every tensor's bytes in it. -/
structure Accurate (serialize : ModelProto → Option ByteString) (path : ByteString)
    (external : Option ExternalBytes) (m : ModelProto) (o : Outcome) : Prop where
  file : o.file = some (fileBytes o.pool)
  blob : ∃ blob, serialize o.model = some blob ∧ o.pool.find? kEmbeddedModelKey = some (modelEntry blob)
  tensors : Leaves (Refers path o.file) external m o.model

/-- Protobuf's encoding of a model is as long as that of one whose records have other values of the same
lengths. -/
def SameWidth (t t' : TensorProto) : Prop :=
  t' = { t with externalData := t'.externalData } ∧
    List.Forall₂ (fun e e' => e'.1 = e.1 ∧ e'.2.length = e.2.length) t.externalData t'.externalData

def KeepsWidth (serialize : ModelProto → Option ByteString) : Prop :=
  ∀ (S : Type) (fn : ByteString → TensorProto → S → TensorProto × S) (m : ModelProto) (s : S),
    List.Forall₂ SameWidth (tensorsOf (visited m.graph)) (tensorsOf (visited (forEachTensor fn m.graph s).1)) →
    (serialize { m with graph := (forEachTensor fn m.graph s).1 }).map List.length = (serialize m).map List.length

end Onnxsim.Storage.Standalone
