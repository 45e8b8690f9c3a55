import Onnxsim.Lib.Loading
import Onnxsim.Storage.Gguf
import Onnxsim.Storage.Safetensors

namespace Onnxsim.Storage.Loaders

open Lib.Bytes Lib.Loading Lib.OrderedMaps Lib.Readers
open Pool GgufTypes Gguf
open HeaderParser Safetensors

def tensorEntry (data : ByteString) (th : TensorHeader) : ByteString × Entry :=
  (th.name, ⟨fromSafetensors th.dtype, th.shape,
    (data.drop th.beginOff).take (th.endOff - th.beginOff)⟩)

/-- What the loader's loop does with one parsed header; `loader` is the name in its errors. -/
def checkTensor (loader path : String) (data : ByteString) (th : TensorHeader) :
    Except String (Option (ByteString × Entry)) :=
  if data.length < th.endOff then
    .error ("TensorPool::" ++ loader ++ ": '" ++ path ++ "' tensor '" ++ textOf th.name ++
      "' data_offsets [" ++ toString th.beginOff ++ ", " ++ toString th.endOff ++
      ") exceed the file's data segment (" ++ toString data.length ++ " bytes)")
  else if fromSafetensors th.dtype = onnxUndefined then
    .error ("TensorPool::" ++ loader ++ ": '" ++ path ++ "' tensor '" ++ textOf th.name ++
      "' has unsupported dtype '" ++ textOf th.dtype ++ "'")
  else .ok (some (tensorEntry data th))

/-- `TensorPool::LoadSafetensorsMmap`; `mapped` says whether `TryMmapFile` could map the file. -/
def loadSafetensorsMmap (mapped : Bool) (pool : TensorPool) (path : String) (file : ByteString) :
    Except String Unit × TensorPool :=
  if !mapped then loadSafetensors pool path file
  else if file.length < 8 then
    (.error ("TensorPool::LoadSafetensorsMmap: '" ++ path ++
      "' is too small to be a safetensors file"), pool)
  else
    let headerLen := ofLE (file.take 8)
    if file.length - 8 < headerLen then
      (.error ("TensorPool::LoadSafetensorsMmap: '" ++ path ++
        "' has an invalid header length"), pool)
    else
      match parse ⟨0, (file.drop 8).take headerLen⟩ with
      | .error e => (.error e, pool)
      | .ok (headers, _) =>
        loadEach (checkTensor "LoadSafetensorsMmap" path (file.drop (8 + headerLen))) headers .empty

/-- The headers of a file and its data segment, where the file gets that far. -/
def headerTensors (file : ByteString) : Option (List TensorHeader × ByteString) :=
  if file.length < 8 then none
  else if file.length - 8 < ofLE (file.take 8) then none
  else
    match parse ⟨0, (file.drop 8).take (ofLE (file.take 8))⟩ with
    | .error _ => none
    | .ok (headers, _) => some (headers, file.drop (8 + ofLE (file.take 8)))

theorem addTensors_eq (path : String) (data : ByteString) (ths : List TensorHeader)
    (pool : TensorPool) :
    addTensors path data ths pool = loadEach (checkTensor "LoadSafetensors" path data) ths pool := by
  induction ths generalizing pool with
  | nil => rfl
  | cons th ths ih =>
    rw [addTensors, loadEach, checkTensor]
    by_cases hrange : data.length < th.endOff
    · rw [if_pos hrange, if_pos hrange]
      rfl
    · rw [if_neg hrange, if_neg hrange]
      by_cases hdtype : fromSafetensors th.dtype = onnxUndefined
      · simp only [if_pos hdtype]
        rfl
      · simp only [if_neg hdtype, ih]
        rfl

/-- How a load went: it failed at its header and kept the pool, or it reached the loop. -/
def RunsLoop {R : Type} (prior : TensorPool) (r : Except String Unit × TensorPool)
    (check : R → Except String (Option (ByteString × Entry))) : Option (List R) → Prop
  | none => (∃ e, r.1 = .error e) ∧ r.2 = prior
  | some records => r = loadEach check records .empty

theorem loadSafetensors_runs (prior : TensorPool) (path : String) (file : ByteString) :
    RunsLoop prior (loadSafetensors prior path file)
      (checkTensor "LoadSafetensors" path ((headerTensors file).elim [] Prod.snd))
      ((headerTensors file).map Prod.fst) := by
  rw [loadSafetensors, headerTensors]
  by_cases hsize : file.length < 8
  · rw [if_pos hsize, if_pos hsize]
    exact ⟨⟨_, rfl⟩, rfl⟩
  · rw [if_neg hsize, if_neg hsize]
    simp only
    by_cases hheader : file.length - 8 < ofLE (file.take 8)
    · rw [if_pos hheader, if_pos hheader]
      exact ⟨⟨_, rfl⟩, rfl⟩
    · rw [if_neg hheader, if_neg hheader]
      cases parse ⟨0, (file.drop 8).take (ofLE (file.take 8))⟩ with
      | error e => exact ⟨⟨e, rfl⟩, rfl⟩
      | ok r => exact addTensors_eq path _ _ _

theorem loadSafetensorsMmap_runs (mapped : Bool) (prior : TensorPool) (path : String)
    (file : ByteString) :
    ∃ loader, RunsLoop prior (loadSafetensorsMmap mapped prior path file)
      (checkTensor loader path ((headerTensors file).elim [] Prod.snd))
      ((headerTensors file).map Prod.fst) := by
  cases mapped with
  | false => exact ⟨_, loadSafetensors_runs prior path file⟩
  | true =>
    refine ⟨"LoadSafetensorsMmap", ?_⟩
    rw [loadSafetensorsMmap, headerTensors, if_neg (by simp)]
    by_cases hsize : file.length < 8
    · rw [if_pos hsize, if_pos hsize]
      exact ⟨⟨_, rfl⟩, rfl⟩
    · rw [if_neg hsize, if_neg hsize]
      simp only
      by_cases hheader : file.length - 8 < ofLE (file.take 8)
      · rw [if_pos hheader, if_pos hheader]
        exact ⟨⟨_, rfl⟩, rfl⟩
      · rw [if_neg hheader, if_neg hheader]
        cases parse ⟨0, (file.drop 8).take (ofLE (file.take 8))⟩ with
        | error e => exact ⟨⟨e, rfl⟩, rfl⟩
        | ok r => rfl

/-- `seekg(off, std::ios::cur)` on `MemStreamBuf`, which refuses to leave the mapped bytes. -/
def seekMapped (file : ByteString) (path : String) (off : Nat) : FileReader Unit := fun c =>
  let target : Int := c.pos + (Int64.ofNat off).toInt
  if target < 0 ∨ file.length < target then failRead path "truncated metadata array" c
  else .ok ((), ⟨target.toNat, file.drop target.toNat⟩)

def skipArrayWith (seek : Nat → FileReader Unit) (path : String) : FileReader Unit := do
  let elemType ← readLE path 4
  let len ← readLE path 8
  if elemType = typeArray then failRead path "nested metadata arrays are not supported"
  else if elemType = typeString then
    let _ ← readMany (readGGUFString path) len
    pure ()
  else if fixedMetadataScalarSize elemType = 0 then
    failRead path ("unknown metadata array element type " ++ toString elemType)
  else seek (fixedMetadataScalarSize elemType * len)

def skipMetadataValueWith (seek : Nat → FileReader Unit) (path : String) (valueType : Nat) :
    FileReader (Option Nat) :=
  if valueType = typeString then do
    let _ ← readGGUFString path
    pure none
  else if valueType = typeArray then do
    skipArrayWith seek path
    pure none
  else if fixedMetadataScalarSize valueType = 0 then
    failRead path ("unknown metadata value type " ++ toString valueType)
  else do
    let bytes ← readBytes path "truncated metadata value" (fixedMetadataScalarSize valueType)
    pure (if valueType = 0 ∨ valueType = 2 ∨ valueType = 4 ∨ valueType = 10 then
      some (ofLE bytes) else none)

def readAlignmentWith (seek : Nat → FileReader Unit) (path : String) : Nat → Nat → FileReader Nat
  | 0, alignment => pure alignment
  | n + 1, alignment => do
    let key ← readGGUFString path
    let valueType ← readLE path 4
    let numeric ← skipMetadataValueWith seek path valueType
    readAlignmentWith seek path n
      (if key = ascii "general.alignment" ∧ numeric.getD 0 ≠ 0 then numeric.getD 0 else alignment)

/-- The tensor infos and the alignment. The header ends where the cursor is left. -/
def readLayoutWith (seek : Nat → FileReader Unit) (path : String) :
    FileReader (List TensorInfo × Nat) := do
  let counts ← readCounts path
  let alignment ← readAlignmentWith seek path counts.2 kDefaultAlignment
  let infos ← readMany (readTensorInfo path) counts.1
  pure (infos, alignment)

structure Layout where
  infos : List TensorInfo
  headerEnd : Nat
  alignment : Nat

def Layout.dataStart (l : Layout) : Nat := alignUp l.headerEnd l.alignment

/-- The layout of a GGUF file, read from the file or, where `mapped`, from its mapped bytes. -/
def layoutOf (mapped : Bool) (path : String) (file : ByteString) : Except String Layout :=
  match readLayoutWith (if mapped then seekMapped file path else seekCur file path) path ⟨0, file⟩ with
  | .error e => .error e
  | .ok ((infos, alignment), c) => .ok ⟨infos, c.pos, alignment⟩

/-- `TensorPool::LoadGGUFMmap`. Its loop over the tensor infos is that of `LoadGGUF`. -/
def loadGGUFMmap (mapped : Bool) (pool : TensorPool) (path : String) (file : ByteString) :
    Except String (List ByteString) × TensorPool :=
  if !mapped then loadGGUF pool path file
  else
    match layoutOf true path file with
    | .error e => (.error e, pool)
    | .ok layout => addInfos path file layout.dataStart layout.infos [] .empty

def byteOffset (dataStart : Nat) (info : TensorInfo) : Nat := (dataStart + info.offset) % 2 ^ 64

def infoEntry (file : ByteString) (dataStart : Nat) (info : TensorInfo) (t : GgmlType)
    (nbytes : Nat) : ByteString × Entry :=
  (info.name, ⟨toOnnx t, onnxShape info.ne, (file.drop (byteOffset dataStart info)).take nbytes⟩)

def checkInfo (path : String) (file : ByteString) (dataStart : Nat) (info : TensorInfo) :
    Except String (Option (ByteString × Entry)) :=
  match ofCode info.ggmlType with
  | none => .ok none
  | some t =>
    match tryTotalBytes t (elementCount info.ne) with
    | none =>
      .error ("TensorPool::LoadGGUF: '" ++ path ++ "': tensor '" ++ textOf info.name ++
        "' element count is not a multiple of its quantization block size")
    | some nbytes =>
      if file.length < byteOffset dataStart info ∨
          file.length - byteOffset dataStart info < nbytes then
        .error ("TensorPool::LoadGGUF: '" ++ path ++ "': tensor '" ++ textOf info.name ++
          "' data range extends past the end of the file")
      else .ok (some (infoEntry file dataStart info t nbytes))

theorem addInfos_eq (path : String) (file : ByteString) (dataStart : Nat) (infos : List TensorInfo)
    (skipped : List ByteString) (pool : TensorPool) :
    (addInfos path file dataStart infos skipped pool).2 =
        (loadEach (checkInfo path file dataStart) infos pool).2 ∧
      ((addInfos path file dataStart infos skipped pool).1.map fun _ => ()) =
        (loadEach (checkInfo path file dataStart) infos pool).1 := by
  induction infos generalizing skipped pool with
  | nil => exact ⟨rfl, rfl⟩
  | cons info infos ih =>
    rw [addInfos, loadEach, checkInfo]
    cases hcode : ofCode info.ggmlType with
    | none => exact ih _ pool
    | some t =>
      simp only
      cases hbytes : tryTotalBytes t (elementCount info.ne) with
      | none => exact ⟨rfl, rfl⟩
      | some nbytes =>
        simp only
        by_cases hrange : file.length < byteOffset dataStart info ∨
            file.length - byteOffset dataStart info < nbytes
        · rw [if_pos hrange]
          rw [byteOffset] at hrange
          rw [if_pos hrange]
          exact ⟨rfl, rfl⟩
        · rw [if_neg hrange]
          rw [byteOffset] at hrange
          rw [if_neg hrange]
          exact ih _ _

theorem readAlignmentWith_seekCur (file : ByteString) (path : String) (n alignment : Nat) :
    readAlignmentWith (seekCur file path) path n alignment = readAlignment file path n alignment := by
  induction n generalizing alignment with
  | zero => rfl
  | succ n ih =>
    rw [readAlignmentWith, readAlignment]
    simp only [ih]
    rfl

theorem readHeader_eq (file : ByteString) (path : String) (c : Cursor Byte) :
    readHeader file path c =
      (readLayoutWith (seekCur file path) path c).map fun r =>
        ((r.1.1, alignUp r.2.pos r.1.2), r.2) := by
  rw [readHeader, readLayoutWith, run_bind, run_bind]
  cases readCounts path c with
  | error e => rfl
  | ok counts =>
    simp only [run_bind, readAlignmentWith_seekCur]
    cases readAlignment file path counts.1.2 kDefaultAlignment counts.2 with
    | error e => rfl
    | ok alignment =>
      simp only
      cases readMany (readTensorInfo path) counts.1.1 alignment.2 <;> rfl

theorem loadGGUF_eq (prior : TensorPool) (path : String) (file : ByteString) :
    loadGGUF prior path file =
      match layoutOf false path file with
      | .error e => (.error e, prior)
      | .ok layout => addInfos path file layout.dataStart layout.infos [] .empty := by
  rw [loadGGUF, readHeader_eq, layoutOf]
  simp only [Bool.false_eq_true, if_false]
  cases readLayoutWith (seekCur file path) path ⟨0, file⟩ <;> rfl

theorem loadGGUFMmap_eq (mapped : Bool) (prior : TensorPool) (path : String) (file : ByteString) :
    loadGGUFMmap mapped prior path file =
      match layoutOf mapped path file with
      | .error e => (.error e, prior)
      | .ok layout => addInfos path file layout.dataStart layout.infos [] .empty := by
  cases mapped with
  | false => exact loadGGUF_eq prior path file
  | true => rfl

/-- What is left of a GGUF load when the names of skipped tensors are dropped. -/
def outcome (r : Except String (List ByteString) × TensorPool) : Except String Unit × TensorPool :=
  (r.1.map fun _ => (), r.2)

theorem loadGGUFMmap_runs (mapped : Bool) (prior : TensorPool) (path : String) (file : ByteString) :
    RunsLoop prior (outcome (loadGGUFMmap mapped prior path file))
      (checkInfo path file ((layoutOf mapped path file).toOption.elim 0 Layout.dataStart))
      ((layoutOf mapped path file).toOption.map Layout.infos) := by
  rw [loadGGUFMmap_eq]
  cases layoutOf mapped path file with
  | error e => exact ⟨⟨e, rfl⟩, rfl⟩
  | ok layout =>
    obtain ⟨hpool, hresult⟩ := addInfos_eq path file layout.dataStart layout.infos [] .empty
    exact Prod.ext hresult hpool

end Onnxsim.Storage.Loaders

namespace Onnxsim.Storage.Atomicity

open Lib.Bytes Lib.Loading Lib.OrderedMaps
open Pool GgufTypes Gguf
open HeaderParser Safetensors Loaders

/-- The tensor's bytes are in the file and its dtype is one the pool knows. -/
def tensorLoads (data : ByteString) (th : TensorHeader) : Bool :=
  th.endOff ≤ data.length && fromSafetensors th.dtype != onnxUndefined

/-- The tensor is skipped, or its element count fills whole blocks and its bytes are in the file. -/
def infoLoads (file : ByteString) (dataStart : Nat) (info : TensorInfo) : Bool :=
  match ofCode info.ggmlType with
  | none => true
  | some t =>
    match tryTotalBytes t (elementCount info.ne) with
    | none => false
    | some nbytes =>
      byteOffset dataStart info ≤ file.length && nbytes ≤ file.length - byteOffset dataStart info

theorem passes_checkTensor (loader path : String) (data : ByteString) (th : TensorHeader) :
    passes (checkTensor loader path data) th = tensorLoads data th := by
  rw [passes, checkTensor, tensorLoads]
  by_cases hrange : data.length < th.endOff
  · simp [hrange]
  · by_cases hdtype : fromSafetensors th.dtype = onnxUndefined
    · simp [hrange, hdtype]
    · simp [hrange, hdtype, Nat.not_lt.mp hrange]

theorem passes_checkInfo (path : String) (file : ByteString) (dataStart : Nat) (info : TensorInfo) :
    passes (checkInfo path file dataStart) info = infoLoads file dataStart info := by
  rw [passes, checkInfo, infoLoads]
  cases ofCode info.ggmlType with
  | none => rfl
  | some t =>
    simp only
    cases tryTotalBytes t (elementCount info.ne) with
    | none => rfl
    | some nbytes =>
      simp only
      by_cases hrange : file.length < byteOffset dataStart info ∨
          file.length - byteOffset dataStart info < nbytes
      · rw [if_pos hrange]
        rcases hrange with hrange | hrange
        · simp [Nat.not_le.mpr hrange]
        · simp [Nat.not_le.mpr hrange]
      · rw [if_neg hrange]
        obtain ⟨hoff, hbytes⟩ := not_or.mp hrange
        simp [Nat.not_lt.mp hoff, Nat.not_lt.mp hbytes]

/-- Every record loads, or the pool already held just what the records before the first bad one give. -/
def Undisturbed {R : Type} (prior : TensorPool) (loads : R → Bool)
    (entry : R → Option (ByteString × Entry)) (records : List R) : Prop :=
  (∀ r ∈ records, loads r = true) ∨
    prior = .ofList ((records.takeWhile loads).filterMap entry)

def entryOfTensor (data : ByteString) (th : TensorHeader) : Option (ByteString × Entry) :=
  entryOf (checkTensor "LoadSafetensors" "" data) th

def entryOfInfo (file : ByteString) (dataStart : Nat) (info : TensorInfo) :
    Option (ByteString × Entry) := entryOf (checkInfo "" file dataStart) info

theorem entryOf_checkTensor (loader path : String) (data : ByteString) :
    entryOf (checkTensor loader path data) = entryOfTensor data := by
  funext th
  rw [entryOfTensor, entryOf, entryOf, checkTensor, checkTensor]
  by_cases hrange : data.length < th.endOff
  · rw [if_pos hrange, if_pos hrange]
  · rw [if_neg hrange, if_neg hrange]
    by_cases hdtype : fromSafetensors th.dtype = onnxUndefined
    · rw [if_pos hdtype, if_pos hdtype]
    · rw [if_neg hdtype, if_neg hdtype]

theorem entryOf_checkInfo (path : String) (file : ByteString) (dataStart : Nat) :
    entryOf (checkInfo path file dataStart) = entryOfInfo file dataStart := by
  funext info
  rw [entryOfInfo, entryOf, entryOf, checkInfo, checkInfo]
  cases ofCode info.ggmlType with
  | none => rfl
  | some t =>
    simp only
    cases tryTotalBytes t (elementCount info.ne) with
    | none => rfl
    | some nbytes =>
      simp only
      by_cases hrange : file.length < byteOffset dataStart info ∨
          file.length - byteOffset dataStart info < nbytes
      · rw [if_pos hrange, if_pos hrange]
      · rw [if_neg hrange, if_neg hrange]

/-- The condition under which a failing safetensors load leaves the pool alone. -/
def SafetensorsUndisturbed (prior : TensorPool) (file : ByteString) : Prop :=
  ∀ headers data, headerTensors file = some (headers, data) →
    Undisturbed prior (tensorLoads data) (entryOfTensor data) headers

/-- The same for GGUF, whose header is read from the file or from its mapped bytes. -/
def GgufUndisturbed (mapped : Bool) (prior : TensorPool) (path : String) (file : ByteString) : Prop :=
  ∀ layout, layoutOf mapped path file = .ok layout →
    Undisturbed prior (infoLoads file layout.dataStart) (entryOfInfo file layout.dataStart)
      layout.infos

variable {r : Except String Unit × TensorPool} {prior : TensorPool}

theorem atomic_of_runsLoop {R : Type} {check : R → Except String (Option (ByteString × Entry))}
    {records : Option (List R)} (h : RunsLoop prior r check records) :
    Atomic prior r ↔ ∀ rs, records = some rs →
      Undisturbed prior (passes check) (entryOf check) rs := by
  cases records with
  | none =>
    constructor
    · exact fun _ rs hrs => nomatch hrs
    · exact fun _ _ _ => h.2
  | some rs =>
    have hrun : r = loadEach check rs .empty := h
    rw [hrun, atomic_loadEach_iff]
    constructor
    · intro hu rs' hrs
      cases hrs
      exact hu
    · exact fun hu => hu rs rfl

theorem atomic_safetensors {loader path : String} {file : ByteString}
    (h : RunsLoop prior r (checkTensor loader path ((headerTensors file).elim [] Prod.snd))
      ((headerTensors file).map Prod.fst)) :
    Atomic prior r ↔ SafetensorsUndisturbed prior file := by
  rw [atomic_of_runsLoop h, SafetensorsUndisturbed, entryOf_checkTensor]
  have hpasses : passes (checkTensor loader path ((headerTensors file).elim [] Prod.snd)) =
      tensorLoads ((headerTensors file).elim [] Prod.snd) := funext (passes_checkTensor loader path _)
  rw [hpasses]
  cases headerTensors file with
  | none => simp
  | some hd =>
    obtain ⟨headers, data⟩ := hd
    constructor
    · intro h headers' data' heq
      cases heq
      exact h headers rfl
    · intro h rs hrs
      cases hrs
      exact h headers data rfl

theorem atomic_gguf (mapped : Bool) (prior : TensorPool) (path : String) (file : ByteString) :
    Atomic prior (loadGGUFMmap mapped prior path file) ↔ GgufUndisturbed mapped prior path file := by
  have houtcome : Atomic prior (loadGGUFMmap mapped prior path file) ↔
      Atomic prior (outcome (loadGGUFMmap mapped prior path file)) := by
    simp only [Atomic, outcome]
    cases (loadGGUFMmap mapped prior path file).1 <;> simp [Except.map]
  rw [houtcome, atomic_of_runsLoop (loadGGUFMmap_runs mapped prior path file), GgufUndisturbed,
    entryOf_checkInfo]
  have hpasses : passes (checkInfo path file
        ((layoutOf mapped path file).toOption.elim 0 Layout.dataStart)) =
      infoLoads file ((layoutOf mapped path file).toOption.elim 0 Layout.dataStart) :=
    funext (passes_checkInfo path file _)
  rw [hpasses]
  cases layoutOf mapped path file with
  | error e => simp [Except.toOption]
  | ok layout => simp [Except.toOption]

/-- A load that throws leaves the pool as it was exactly where no tensor fails its own check after the
pool has been cleared, or where the tensors before that one are what the pool held. -/
theorem load_atomic_iff (prior : TensorPool) (path : String) (file : ByteString) (mapped : Bool) :
    (Atomic prior (loadSafetensors prior path file) ↔ SafetensorsUndisturbed prior file) ∧
      (Atomic prior (loadSafetensorsMmap mapped prior path file) ↔
        SafetensorsUndisturbed prior file) ∧
      (Atomic prior (loadGGUF prior path file) ↔ GgufUndisturbed false prior path file) ∧
      (Atomic prior (loadGGUFMmap mapped prior path file) ↔
        GgufUndisturbed mapped prior path file) := by
  refine ⟨atomic_safetensors (loadSafetensors_runs prior path file), ?_,
    atomic_gguf false prior path file, atomic_gguf mapped prior path file⟩
  obtain ⟨loader, hruns⟩ := loadSafetensorsMmap_runs mapped prior path file
  exact atomic_safetensors hruns

/-- One tensor whose bytes would lie past the end of an empty data segment. -/
def truncatedHeader : ByteString :=
  ascii "\x7b\"a\":\x7b\"dtype\":\"U8\",\"shape\":[1],\"data_offsets\":[0,1]\x7d\x7d"

def truncatedFile : ByteString := leBytes 8 truncatedHeader.length ++ truncatedHeader

def heldPool : TensorPool := SortedMap.empty.insert (ascii "w") ⟨2, [1], [7]⟩

/-- Loading it into a pool with a tensor throws, and the pool has lost the tensor. -/
theorem truncated_load_clears :
    (∃ e, (loadSafetensors heldPool "f" truncatedFile).1 = .error e) ∧
      ¬ Atomic heldPool (loadSafetensors heldPool "f" truncatedFile) := by
  have hfails : (loadSafetensors heldPool "f" truncatedFile).1.toOption = none := by decide +kernel
  have hcleared : (loadSafetensors heldPool "f" truncatedFile).2 ≠ heldPool := by decide +kernel
  cases hresult : (loadSafetensors heldPool "f" truncatedFile).1 with
  | ok u =>
    rw [hresult] at hfails
    cases hfails
  | error e => exact ⟨⟨e, rfl⟩, fun h => hcleared (h e hresult)⟩

end Onnxsim.Storage.Atomicity
