import Onnxsim.Lib.Memories
import Onnxsim.Storage.Pool
import Onnxsim.Wire.Encoders

namespace Onnxsim.Axcl.Models

open List Lib.Bytes Lib.Memories

/-- The ONNX type of an AXCL engine type, and zero where there is none. -/
def onnxDtypeOfAxcl : Nat → UInt8
  | 0 => 10
  | 3 => 3
  | 4 => 2
  | 5 => 5
  | 6 => 4
  | 7 => 6
  | 8 => 12
  | 9 => 7
  | 10 => 13
  | 13 => 10
  | 14 => 16
  | 15 => 1
  | 16 => 11
  | _ => 0

structure IoSpec where
  name : ByteString
  axclDtype : Nat
  shape : List Int
  bytes : Nat

def IoSpec.onnxDtype (s : IoSpec) : UInt8 := onnxDtypeOfAxcl s.axclDtype

/-- What the engine says of the model in a file, and what it computes: one buffer for each output. -/
structure Engine where
  inputs : ByteString → List IoSpec
  outputs : ByteString → List IoSpec
  execute : ByteString → List ByteString → List ByteString
  execute_sizes : ∀ image ins, (execute image ins).map List.length = (outputs image).map IoSpec.bytes

inductive Buffer where
  | arena
  | input (i : Nat)
  | output (i : Nat)
deriving DecidableEq

structure LoadedModel where
  key : ByteString
  /-- The contents of the file at the time of loading. -/
  image : ByteString
  inSpecs : List IoSpec
  outSpecs : List IoSpec
  mtimeNs : Int
  fileSize : Nat
  memory : Memory Buffer Byte
  stateId : Nat
  shadow : List ByteString

section

def kSmallInputBytes : Nat := 64 * 1024
def kArenaAlign : Nat := 256

def aligned (bytes : Nat) : Nat := (bytes + kArenaAlign - 1) / kArenaAlign * kArenaAlign

def arenaOffsets (start : Nat) : List Nat → List (Option Nat)
  | [] => []
  | b :: bs =>
    if b > kSmallInputBytes then none :: arenaOffsets start bs else some start :: arenaOffsets (start + aligned b) bs

def arenaEnd (start : Nat) : List Nat → Nat
  | [] => start
  | b :: bs => if b > kSmallInputBytes then arenaEnd start bs else arenaEnd (start + aligned b) bs

theorem le_aligned (b : Nat) : b ≤ aligned b := by
  rw [aligned, kArenaAlign]
  omega

theorem le_arenaEnd (bs : List Nat) (start : Nat) : start ≤ arenaEnd start bs := by
  induction bs generalizing start with
  | nil => exact Nat.le_refl _
  | cons b bs ih =>
    rw [arenaEnd]
    split
    · exact ih start
    · exact le_trans (Nat.le_add_right _ _) (ih _)

variable {bs : List Nat} {start off i b : Nat}

theorem arenaOffsets_bounds (hb : bs[i]? = some b) (h : (arenaOffsets start bs)[i]? = some (some off)) :
    start ≤ off ∧ off + b ≤ arenaEnd start bs := by
  induction bs generalizing start i with
  | nil => cases hb
  | cons c bs ih =>
    have hc := le_aligned c
    rw [arenaOffsets] at h
    rw [arenaEnd]
    split at h
    next hsmall =>
      rw [if_pos hsmall]
      cases i with
      | zero => cases h
      | succ i => exact ih hb h
    next hsmall =>
      rw [if_neg hsmall]
      cases i with
      | zero =>
        simp only [getElem?_cons_zero, Option.some.injEq] at h hb
        have hend := le_arenaEnd bs (start + aligned c)
        omega
      | succ i =>
        have hi := ih hb h
        exact ⟨by omega, hi.2⟩

theorem arenaOffsets_apart {j off' : Nat} (hij : i < j) (hb : bs[i]? = some b)
    (h : (arenaOffsets start bs)[i]? = some (some off)) (h' : (arenaOffsets start bs)[j]? = some (some off'))
    (hj : j < bs.length) : off + b ≤ off' := by
  induction bs generalizing start i j with
  | nil => cases hb
  | cons c bs ih =>
    obtain ⟨j, rfl⟩ : ∃ k, j = k + 1 := ⟨j - 1, by omega⟩
    have hjl : j < bs.length := by simpa using hj
    rw [arenaOffsets] at h h'
    split at h
    next hsmall =>
      rw [if_pos hsmall] at h'
      cases i with
      | zero => cases h
      | succ i => exact ih (by omega) hb h h' hjl
    next hsmall =>
      rw [if_neg hsmall] at h'
      cases i with
      | zero =>
        simp only [getElem?_cons_zero, Option.some.injEq] at h hb
        have hc := le_aligned c
        have hoff := (arenaOffsets_bounds (getElem?_eq_getElem hjl) h').1
        omega
      | succ i => exact ih (by omega) hb h h' hjl

end

variable (m : LoadedModel)

def LoadedModel.inSizes : List Nat := m.inSpecs.map IoSpec.bytes

def LoadedModel.inSize (i : Nat) : Nat := m.inSizes.getD i 0

def LoadedModel.outSize (i : Nat) : Nat := (m.outSpecs.map IoSpec.bytes).getD i 0

def LoadedModel.arenaBytes : Nat := arenaEnd 0 m.inSizes

def LoadedModel.arenaOffset (i : Nat) : Option Nat := (arenaOffsets 0 m.inSizes)[i]?.join

/-- The device buffer of an input: its part of the arena or one of its own. -/
def LoadedModel.inputPointer (i : Nat) : Pointer Buffer :=
  match m.arenaOffset i with
  | some off => ⟨.arena, off⟩
  | none => ⟨.input i, 0⟩

def outputPointer (i : Nat) : Pointer Buffer := ⟨.output i, 0⟩

def LoadedModel.held (mem : Memory Buffer Byte) : List ByteString :=
  (List.range m.inSpecs.length).map fun i => read mem (m.inputPointer i) (m.inSize i)

def LoadedModel.contents : List ByteString := m.held m.memory

variable {m} {i j off n k : Nat}

theorem arenaOffset_eq_some : m.arenaOffset i = some off ↔ (arenaOffsets 0 m.inSizes)[i]? = some (some off) :=
  Option.join_eq_some_iff

theorem getElem?_inSizes (hi : i < m.inSpecs.length) : m.inSizes[i]? = some (m.inSize i) := by
  have hlen : i < m.inSizes.length := by rwa [LoadedModel.inSizes, length_map]
  rw [LoadedModel.inSize, getD_eq_getElem?_getD, getElem?_eq_getElem hlen, Option.getD_some]

theorem inputPointer_of_arena (h : m.arenaOffset i = some off) : m.inputPointer i = ⟨.arena, off⟩ := by
  rw [LoadedModel.inputPointer, h]

theorem inputPointer_of_own (h : m.arenaOffset i = none) : m.inputPointer i = ⟨.input i, 0⟩ := by
  rw [LoadedModel.inputPointer, h]

theorem arena_bounds (hi : i < m.inSpecs.length) (h : m.arenaOffset i = some off) :
    off + m.inSize i ≤ m.arenaBytes :=
  (arenaOffsets_bounds (getElem?_inSizes hi) (arenaOffset_eq_some.mp h)).2

theorem apart_of_lt (hij : i < j) (hj : j < m.inSpecs.length) :
    Apart (m.inputPointer i) (m.inSize i) (m.inputPointer j) (m.inSize j) := by
  have hi : i < m.inSpecs.length := Nat.lt_trans hij hj
  intro hbuf
  cases h : m.arenaOffset i with
  | none =>
    rw [inputPointer_of_own h] at hbuf
    cases h' : m.arenaOffset j with
    | none =>
      rw [inputPointer_of_own h'] at hbuf
      cases hbuf
      exact absurd hij (Nat.lt_irrefl _)
    | some off' =>
      rw [inputPointer_of_arena h'] at hbuf
      cases hbuf
  | some off =>
    rw [inputPointer_of_arena h] at hbuf
    cases h' : m.arenaOffset j with
    | none =>
      rw [inputPointer_of_own h'] at hbuf
      cases hbuf
    | some off' =>
      rw [inputPointer_of_arena h, inputPointer_of_arena h']
      have hlen : j < m.inSizes.length := by rwa [LoadedModel.inSizes, length_map]
      exact .inl (arenaOffsets_apart hij (getElem?_inSizes hi) (arenaOffset_eq_some.mp h)
        (arenaOffset_eq_some.mp h') hlen)

theorem apart_inputs (hij : i ≠ j) (hi : i < m.inSpecs.length) (hj : j < m.inSpecs.length) :
    Apart (m.inputPointer i) (m.inSize i) (m.inputPointer j) (m.inSize j) := by
  cases Nat.lt_or_gt_of_ne hij with
  | inl h => exact apart_of_lt h hj
  | inr h => exact (apart_of_lt h hi).symm

theorem inputPointer_ne_output : (m.inputPointer i).buffer ≠ (outputPointer j).buffer := by
  cases h : m.arenaOffset i with
  | none =>
    rw [inputPointer_of_own h]
    exact nofun
  | some off =>
    rw [inputPointer_of_arena h]
    exact nofun

theorem apart_output : Apart (m.inputPointer i) n (outputPointer j) k := fun hbuf => absurd hbuf inputPointer_ne_output

theorem apart_outputs (hij : i ≠ j) : Apart (outputPointer i) n (outputPointer j) k := by
  intro hbuf
  cases hbuf
  exact absurd rfl hij

@[simp] theorem length_held (mem : Memory Buffer Byte) : (m.held mem).length = m.inSpecs.length := by
  rw [LoadedModel.held, length_map, length_range]

@[simp] theorem getElem_held {mem : Memory Buffer Byte} (h : i < (m.held mem).length) :
    (m.held mem)[i] = read mem (m.inputPointer i) (m.inSize i) := by
  simp [LoadedModel.held]

end Onnxsim.Axcl.Models

namespace Onnxsim.Axcl.Controls

open Option Lib.Bytes Storage.Pool

structure RowWrite where
  out : Nat
  into : Nat
  slot : Nat

structure ResidentControl where
  /-- The state that the request continues; zero is no state. -/
  state : Option Nat := none
  writes : List RowWrite := []
  omits : List Nat := []

def kMaxResidentControlBytes : Nat := 4096

def newline : Byte := 10

def isSpace (c : Byte) : Bool := c = 32 || 9 ≤ c.val && c.val ≤ 13

/-- `getline` until it fails: the lines, where a last empty one is none. -/
def getlines : ByteString → ByteString → List ByteString
  | [], [] => []
  | line, [] => [line]
  | line, c :: cs => if c = newline then line :: getlines [] cs else getlines (line ++ [c]) cs

/-- `>>` into a string: the next word and what is left. -/
def readWord (fields : ByteString) : ByteString × ByteString :=
  ((fields.dropWhile isSpace).takeWhile (! isSpace ·), (fields.dropWhile isSpace).dropWhile (! isSpace ·))

/-- `>>` into an unsigned integer of `w` bits: a number in range, and of a negative one its residue. -/
def readUnsigned (w : Nat) (fields : ByteString) : Option (Nat × ByteString) :=
  let text := fields.dropWhile isSpace
  let negative : Bool := text.head? = some 45
  let digits := if negative || text.head? = some 43 then text.drop 1 else text
  let magnitude := digitsValue (digits.takeWhile isDigit)
  if digits.takeWhile isDigit = [] ∨ 2 ^ w ≤ magnitude then none
  else some (if negative then (2 ^ w - magnitude) % 2 ^ w else magnitude, digits.dropWhile isDigit)

/-- The part of a directive after its keyword, which has to use the line up. -/
def readDirective (control : ResidentControl) (key fields : ByteString) : Option ResidentControl :=
  if key = ascii "state" then
    match control.state, readUnsigned 64 fields with
    | none, some (id, rest) => if id ≠ 0 ∧ (readWord rest).1 = [] then some { control with state := some id } else none
    | _, _ => none
  else if key = ascii "write" then do
    let out ← readUnsigned 32 fields
    let into ← readUnsigned 32 out.2
    let slot ← readUnsigned 64 into.2
    if (readWord slot.2).1 = [] then some { control with writes := control.writes ++ [⟨out.1, into.1, slot.1⟩] }
    else none
  else if key = ascii "omit" then do
    let out ← readUnsigned 32 fields
    if (readWord out.2).1 = [] then some { control with omits := control.omits ++ [out.1] } else none
  else none

def readLines : ResidentControl → List ByteString → Except ByteString ResidentControl
  | control, [] => .ok control
  | control, line :: lines =>
    if (readWord line).1 = [] then readLines control lines
    else
      match readDirective control (readWord line).1 (readWord line).2 with
      | none => .error (ascii "AXCL resident control: bad directive: " ++ line.take 64)
      | some control => readLines control lines

def parse_resident_control (bytes : ByteString) : Except ByteString ResidentControl :=
  if bytes.length > kMaxResidentControlBytes then .error (ascii "AXCL resident control too large")
  else readLines {} (getlines [] bytes)

variable {control control' : ResidentControl}

theorem readDirective_state {key fields : ByteString} (h : readDirective control key fields = some control')
    (hs : control.state ≠ some 0) : control'.state ≠ some 0 := by
  rw [readDirective] at h
  split at h
  · split at h
    · split at h
      next hid =>
        cases h
        intro h0
        exact hid.1 (Option.some.inj h0)
      · cases h
    · cases h
  · split at h
    · simp only [bind_eq_bind, bind_eq_some_iff] at h
      obtain ⟨_, _, _, _, _, _, h⟩ := h
      split at h
      · cases h
        exact hs
      · cases h
    · split at h
      · simp only [bind_eq_bind, bind_eq_some_iff] at h
        obtain ⟨_, _, h⟩ := h
        split at h
        · cases h
          exact hs
        · cases h
      · cases h

theorem readLines_state {lines : List ByteString} (h : readLines control lines = .ok control')
    (hs : control.state ≠ some 0) : control'.state ≠ some 0 := by
  induction lines generalizing control with
  | nil =>
    cases h
    exact hs
  | cons line lines ih =>
    rw [readLines] at h
    split at h
    · exact ih h hs
    · split at h
      · cases h
      next hd => exact ih h (readDirective_state hd hs)

theorem parse_resident_control_state {bytes : ByteString} (h : parse_resident_control bytes = .ok control) :
    control.state ≠ some 0 := by
  rw [parse_resident_control] at h
  split at h
  · cases h
  · exact readLines_state h nofun

end Onnxsim.Axcl.Controls

namespace Onnxsim.Axcl.Running

open Lib.Bytes Lib.Memories Storage.Pool Wire.Messages
open Controls Models

/-- How the worker was started; the cache directory is empty when none was named. -/
structure Config where
  useCache : Bool
  maxLoaded : Nat
  maxLoaded_pos : 0 < maxLoaded
  rowCopyOnDevice : Bool
  cacheDir : ByteString

/-- Which of the calls of one request fail, and what fresh device memory holds. The first attempts to load a
model come first; a row is copied in one call on the device and in two through the host. -/
structure Faults where
  load : Nat → Option ByteString
  fresh : Nat → Memory Buffer Byte
  createDir : Option ByteString
  publish : Option ByteString
  published : Int
  clear : Nat → Bool
  arena : Bool
  upload : Nat → Bool
  execute : Bool
  row : Nat → Bool
  rowDown : Nat → Bool
  rowUp : Nat → Bool
  download : Nat → Bool

/-- How `run_loaded` ends: before anything was uploaded, on a failure of the device, or with the model as it is
then, the next state id, what the engine was executed on and the outputs. -/
inductive Run where
  | refused (error : ByteString)
  | failed (error : ByteString)
  | done (m : LoadedModel) (next : Nat) (ran : List ByteString) (outputs : List Tensor)

def sourceBytes (t : Tensor) : ByteString := if t.dtype = 1 then wordBytes t.data else t.rawData

/-- What is to be uploaded for an input; nothing where it keeps what the device holds. -/
def checkInput (resident : Bool) (i : Nat) (spec : IoSpec) (t : Tensor) : Except ByteString (Option ByteString) :=
  if spec.onnxDtype = 0 ∨ t.dtype ≠ spec.onnxDtype then
    .error (ascii "AXCL input " ++ decimal i ++ ascii " dtype mismatch: model wants ONNX dtype " ++
      decimal spec.onnxDtype.toNat ++ ascii ", request sent " ++ decimal t.dtype.toNat)
  else if resident = true ∧ sourceBytes t = [] ∧ spec.bytes ≠ 0 then .ok none
  else if spec.bytes ≠ (sourceBytes t).length then
    .error (ascii "AXCL input " ++ decimal i ++ ascii " must have the model's exact size")
  else .ok (some (sourceBytes t))

def checkInputs (resident : Bool) : Nat → List IoSpec → List Tensor → Except ByteString (List (Option ByteString))
  | i, spec :: specs, t :: ts => do
    let u ← checkInput resident i spec t
    let us ← checkInputs resident (i + 1) specs ts
    return u :: us
  | _, _, _ => .ok []

def checkOmit (m : LoadedModel) (out : Nat) : Except ByteString Unit :=
  if out ≥ m.outSpecs.length then .error (ascii "AXCL resident control: omit names output " ++ decimal out) else .ok ()

def checkWrite (m : LoadedModel) (w : RowWrite) : Except ByteString Unit :=
  match m.outSpecs[w.out]?, m.inSpecs[w.into]? with
  | some row, some into =>
    if row.bytes = 0 ∨ row.axclDtype ≠ into.axclDtype ∨ into.bytes % row.bytes ≠ 0 ∨ w.slot ≥ into.bytes / row.bytes then
      .error (ascii "AXCL resident control: output " ++ decimal w.out ++ ascii " is not a row of input " ++
        decimal w.into ++ ascii " at slot " ++ decimal w.slot)
    else .ok ()
  | _, _ => .error (ascii "AXCL resident control: write names a tensor the model does not have")

/-- A state has to be the one the model holds; without one nothing may be kept. -/
def checkState (m : LoadedModel) (control : ResidentControl) (uploads : List (Option ByteString)) :
    Except ByteString Unit :=
  match control.state with
  | some id =>
    if id ≠ m.stateId then
      .error (ascii "resident state lost: " ++ m.key ++
        (if m.stateId ≠ 0 then ascii " holds another client's state" else ascii " was loaded or run in full since") ++
        ascii "; send every input in full")
    else .ok ()
  | none =>
    if none ∈ uploads then
      .error (ascii "resident state lost: " ++ m.key ++ ascii " was sent an empty input without a state id" ++
        ascii "; send every input in full")
    else .ok ()

def checkResident (m : LoadedModel) (control : ResidentControl) (uploads : List (Option ByteString)) :
    Except ByteString Unit := do
  control.omits.forM (checkOmit m)
  control.writes.forM (checkWrite m)
  checkState m control uploads

def elements (shape : List Int) : Nat := shape.foldl (fun e d => e * (d % 2 ^ 64).toNat % 2 ^ 64) 1

/-- The tensor that an output comes back in, still without its data. -/
def prepareOutput (omits : List Nat) (i : Nat) (spec : IoSpec) : Except ByteString Tensor :=
  if i ∈ omits then
    .ok { dtype := if spec.onnxDtype = 0 ∨ dtypeBytes spec.onnxDtype.toNat = 0 then 1 else spec.onnxDtype, shape := [0] }
  else if spec.onnxDtype = 0 ∨ dtypeBytes spec.onnxDtype.toNat = 0 then
    .error (ascii "AXCL output " ++ decimal i ++ ascii " has an unsupported dtype")
  else if elements spec.shape * dtypeBytes spec.onnxDtype.toNat % 2 ^ 64 ≠ spec.bytes then
    .error (ascii "AXCL output shape/size mismatch")
  else .ok { dtype := spec.onnxDtype, shape := spec.shape }

def prepareOutputs (omits : List Nat) : Nat → List IoSpec → Except ByteString (List Tensor)
  | _, [] => .ok []
  | i, spec :: specs => do
    let t ← prepareOutput omits i spec
    let ts ← prepareOutputs omits (i + 1) specs
    return t :: ts

def omitsOf (resident : Option ResidentControl) : List Nat :=
  match resident with
  | none => []
  | some control => control.omits

def check (m : LoadedModel) (request : Request) (resident : Option ResidentControl) :
    Except ByteString (List (Option ByteString) × List Tensor) := do
  if m.inSpecs.length ≠ request.inputs.length then .error (ascii "AXCL input count mismatch")
  else
    let uploads ← checkInputs resident.isSome 0 m.inSpecs request.inputs
    match resident with
    | none => .ok ()
    | some control => checkResident m control uploads
    let shells ← prepareOutputs (omitsOf resident) 0 m.outSpecs
    return (uploads, shells)

variable (m : LoadedModel)

/-- The inputs that are sent are written one by one, but for those that went up with the arena. -/
def writeInputs (skip fails : Nat → Bool) (error : ByteString) :
    Nat → List (Option ByteString) → Memory Buffer Byte → Except ByteString (Memory Buffer Byte)
  | _, [], mem => .ok mem
  | i, none :: us, mem => writeInputs skip fails error (i + 1) us mem
  | i, some src :: us, mem =>
    if skip i = true then writeInputs skip fails error (i + 1) us mem
    else if fails i = true then .error error
    else writeInputs skip fails error (i + 1) us (write mem (m.inputPointer i) src)

def stage : Nat → List (Option ByteString) → Memory Buffer Byte → Memory Buffer Byte
  | _, [], mem => mem
  | i, u :: us, mem =>
    stage (i + 1) us (if (m.arenaOffset i).isSome then write mem (m.inputPointer i) (u.getD []) else mem)

/-- The arena goes up in one copy, unless one of its inputs is kept. -/
def packed (uploads : List (Option ByteString)) : Bool :=
  0 < m.arenaBytes && (List.range m.inSpecs.length).all fun i => ! (m.arenaOffset i).isSome || uploads[i]? ≠ some none

def upload (faults : Faults) (uploads : List (Option ByteString)) (mem : Memory Buffer Byte) :
    Except ByteString (Memory Buffer Byte) :=
  if packed m uploads = true then
    if faults.arena = true then .error (ascii "AXCL input upload failed")
    else
      writeInputs m (fun i => (m.arenaOffset i).isSome) faults.upload (ascii "AXCL input upload failed") 0 uploads
        (write mem ⟨.arena, 0⟩ (read (stage m 0 uploads fun _ _ => 0) ⟨.arena, 0⟩ m.arenaBytes))
  else writeInputs m (fun _ => false) faults.upload (ascii "AXCL input upload failed") 0 uploads mem

def writeOutputs : Nat → List ByteString → Memory Buffer Byte → Memory Buffer Byte
  | _, [], mem => mem
  | i, out :: outs, mem => writeOutputs (i + 1) outs (write mem (outputPointer i) out)

/-- The rows that the control asks for, one after the other, on the device or through the host's copies. -/
def writeRows (onDevice : Bool) (faults : Faults) :
    Nat → List RowWrite → Memory Buffer Byte → List ByteString → Except ByteString (Memory Buffer Byte × List ByteString)
  | _, [], mem, shadow => .ok (mem, shadow)
  | k, w :: ws, mem, shadow =>
    let row := read mem (outputPointer w.out) (m.outSize w.out)
    let offset := w.slot * m.outSize w.out
    if onDevice = true then
      if faults.row k = true then .error (ascii "AXCL row copy failed")
      else writeRows onDevice faults (k + 1) ws (write mem ((m.inputPointer w.into).add offset) row) shadow
    else
      let copy := overwrite offset row (shadow.getD w.into [])
      if faults.rowDown k = true ∨ faults.rowUp k = true then .error (ascii "AXCL row copy failed")
      else writeRows onDevice faults (k + 1) ws (write mem (m.inputPointer w.into) copy) (shadow.set w.into copy)

def fill (t : Tensor) (bytes : ByteString) : Tensor :=
  if t.dtype = 1 then { t with data := wordsOf (bytes.length / 4) bytes } else { t with rawData := bytes }

def download (faults : Faults) (omits : List Nat) (mem : Memory Buffer Byte) :
    Nat → List Tensor → Except ByteString (List Tensor)
  | _, [] => .ok []
  | i, t :: ts =>
    if i ∈ omits then do
      let ts ← download faults omits mem (i + 1) ts
      return t :: ts
    else if faults.download i = true then .error (ascii "AXCL output download failed")
    else do
      let ts ← download faults omits mem (i + 1) ts
      return fill t (read mem (outputPointer i) (m.outSize i)) :: ts

def continues (resident : Option ResidentControl) : Bool := (resident.bind ResidentControl.state).isSome

def writesOf (resident : Option ResidentControl) : List RowWrite :=
  match resident with
  | none => []
  | some control => control.writes

/-- The copies that the host keeps, with those of the inputs that are sent. -/
def shadowed (cfg : Config) (m : LoadedModel) (resident : Option ResidentControl) (uploads : List (Option ByteString)) :
    List ByteString :=
  if resident.isSome = true ∧ cfg.rowCopyOnDevice = false then
    List.zipWith (fun s u => u.getD s) (if continues resident = true then m.shadow else List.replicate m.inSpecs.length [])
      uploads
  else if continues resident = true then m.shadow
  else []

def nextStateId (next : Nat) : Nat := (next + 1) % 2 ^ 64

/-- What follows the checks: the model and the next state id after the run, what the engine was executed on, and
the outputs. -/
def perform (cfg : Config) (engine : Engine) (m : LoadedModel) (faults : Faults) (resident : Option ResidentControl)
    (next : Nat) (uploads : List (Option ByteString)) (shells : List Tensor) :
    Except ByteString (LoadedModel × Nat × List ByteString × List Tensor) := do
  let mem ← upload m faults uploads m.memory
  if faults.execute = true then .error (ascii "AXCL execute failed")
  else
    let ran := m.held mem
    let mem := writeOutputs 0 (engine.execute m.image ran) mem
    let rows ← writeRows m cfg.rowCopyOnDevice faults 0 (writesOf resident) mem (shadowed cfg m resident uploads)
    let outputs ← download m faults (omitsOf resident) rows.1 0 shells
    let issues := resident.isSome && ! continues resident
    return ({ m with
        memory := rows.1
        shadow := rows.2
        stateId := if issues then next else if continues resident then m.stateId else 0 },
      if issues then nextStateId next else next, ran, outputs)

def runLoaded (cfg : Config) (engine : Engine) (m : LoadedModel) (request : Request) (faults : Faults)
    (resident : Option ResidentControl) (next : Nat) : Run :=
  match check m request resident with
  | .error e => .refused e
  | .ok checked =>
    match perform cfg engine m faults resident next checked.1 checked.2 with
    | .error e => .failed e
    | .ok r => .done r.1 r.2.1 r.2.2.1 r.2.2.2

def zeros (m : LoadedModel) : List ByteString := m.inSizes.map fun n => List.replicate n 0

/-- Zero-fills every input and starts a new resident state. -/
def resetState (cfg : Config) (m : LoadedModel) (faults : Faults) (next : Nat) :
    Except ByteString (LoadedModel × Nat) := do
  let mem ← writeInputs m (fun _ => false) faults.clear (ascii "AXCL input clear failed") 0 ((zeros m).map some) m.memory
  return ({ m with
      memory := mem
      shadow := if cfg.rowCopyOnDevice then m.shadow else zeros m
      stateId := next }, nextStateId next)

end Onnxsim.Axcl.Running
