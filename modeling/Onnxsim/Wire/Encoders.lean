import Onnxsim.Lib.Bytes
import Onnxsim.Lib.Results

namespace Onnxsim.Wire.Messages

open List Lib.Bytes

/-- `data` holds the bit patterns of the float32 data, `rawData` the little-endian payload of the other types. -/
structure Tensor where
  shape : List Int := []
  data : List UInt32 := []
  dtype : UInt8 := 1
  rawData : ByteString := []
deriving DecidableEq

inductive ProfilingLevel where
  | off | summary | detailed
deriving DecidableEq

structure ProfileEvent where
  name : ByteString
  category : ByteString
  startUs : UInt64
  durationUs : UInt64
  detail : ByteString
deriving DecidableEq

structure Request where
  requestId : UInt64 := 0
  op : ByteString := []
  model : ByteString := []
  artifactId : ByteString := []
  artifact : ByteString := []
  inputs : List Tensor := []
  profiling : ProfilingLevel := .off
deriving DecidableEq

structure Response where
  requestId : UInt64 := 0
  ok : Bool := false
  error : ByteString := []
  outputs : List Tensor := []
  profile : List ProfileEvent := []
  artifactId : ByteString := []
  artifact : ByteString := []
  manifest : ByteString := []
deriving DecidableEq

def kMagic : Nat := 0x4f525452
def kVersion : Nat := 5
def kRun : Nat := 1
def kOk : Nat := 2
def kError : Nat := 3

def kMaxOpBytes : Nat := 128
def kMaxProfileNameBytes : Nat := 128
def kMaxProfileDetailBytes : Nat := 512
def kMaxProfileEvents : Nat := 256
def kMaxArtifactIdBytes : Nat := 256
def kMaxManifestBytes : Nat := 64 * 1024
def kMaxTensors : Nat := 32
def kMaxRank : Nat := 8
def kMaxTensorBytes : Nat := 256 * 1024 * 1024
def kMaxMessageBytes : Nat := 512 * 1024 * 1024
def kMaxArtifactBytes : Nat := kMaxMessageBytes

/-- `dtype_bytes` -/
def dtypeBytes : Nat → Nat
  | 1 | 6 | 12 => 4
  | 2 | 3 | 9 => 1
  | 4 | 5 | 10 | 16 => 2
  | 7 | 11 | 13 => 8
  | _ => 0

def ProfilingLevel.code : ProfilingLevel → Nat
  | .off => 0
  | .summary => 1
  | .detailed => 2

def ProfilingLevel.ofCode : Nat → ProfilingLevel
  | 0 => .off
  | 1 => .summary
  | _ => .detailed

theorem ProfilingLevel.ofCode_code (p : ProfilingLevel) : ofCode p.code = p := by
  cases p <;> rfl

theorem ProfilingLevel.code_ofCode {n : Nat} (h : n ≤ 2) : (ofCode n).code = n := by
  rcases n with _ | _ | _ | n
  · rfl
  · rfl
  · rfl
  · omega

theorem ProfilingLevel.code_le (p : ProfilingLevel) : p.code ≤ 2 := by
  cases p <;> decide

/-- How a codec gives up: with a text, with a text unless there is one already, or without a word. A stray read
is outside the buffer. -/
inductive Failure where
  | told (text : String)
  | suggests (text : String)
  | silent
  | stray
deriving DecidableEq

def wordBytes (ws : List UInt32) : ByteString := ws.flatMap fun w => leBytes 4 w.toNat

def wordsOf : Nat → ByteString → List UInt32
  | 0, _ => []
  | n + 1, bs => UInt32.ofNat (ofLE (bs.take 4)) :: wordsOf n (bs.drop 4)

theorem wordBytes_length (ws : List UInt32) : (wordBytes ws).length = ws.length * 4 := by
  induction ws with
  | nil => rfl
  | cons w ws ih =>
    rw [wordBytes, flatMap_cons, length_append, leBytes_length, ← wordBytes, ih, length_cons]
    omega

theorem wordsOf_length (n : Nat) (bs : ByteString) : (wordsOf n bs).length = n := by
  induction n generalizing bs with
  | zero => rfl
  | succ n ih => rw [wordsOf, length_cons, ih]

theorem wordsOf_wordBytes (ws : List UInt32) : wordsOf ws.length (wordBytes ws) = ws := by
  induction ws with
  | nil => rfl
  | cons w ws ih =>
    have htake : (wordBytes (w :: ws)).take 4 = leBytes 4 w.toNat := by
      rw [wordBytes, flatMap_cons, take_left' (leBytes_length _ _)]
    have hdrop : (wordBytes (w :: ws)).drop 4 = wordBytes ws := by
      rw [wordBytes, flatMap_cons, drop_left' (leBytes_length _ _)]
      rfl
    rw [length_cons, wordsOf, htake, hdrop, ih, ofLE_leBytes_of_lt w.toNat_lt, UInt32.ofNat_toNat]

theorem wordBytes_wordsOf {n : Nat} {bs : ByteString} (h : bs.length = n * 4) : wordBytes (wordsOf n bs) = bs := by
  induction n generalizing bs with
  | zero =>
    cases eq_nil_of_length_eq_zero (h.trans (Nat.zero_mul 4))
    rfl
  | succ n ih =>
    have htake : (bs.take 4).length = 4 := by
      rw [length_take]
      omega
    have hlt : ofLE (bs.take 4) < 2 ^ 32 := by
      have hof := ofLE_lt (bs.take 4)
      rwa [htake] at hof
    have hhead : leBytes 4 (UInt32.ofNat (ofLE (bs.take 4))).toNat = bs.take 4 := by
      rw [UInt32.toNat_ofNat_of_lt' hlt]
      have hle := leBytes_ofLE (bs.take 4)
      rwa [htake] at hle
    have hrest : wordBytes (wordsOf n (bs.drop 4)) = bs.drop 4 := by
      apply ih
      rw [List.length_drop]
      omega
    rw [wordsOf, wordBytes, flatMap_cons, ← wordBytes, hrest, hhead, take_append_drop]

def Tensor.payload (t : Tensor) : ByteString := if t.dtype = 1 then wordBytes t.data else t.rawData

end Onnxsim.Wire.Messages

namespace Onnxsim.Wire.Encoders

open List Lib.Bytes Lib.Results Messages

def putU32 (v : Nat) : ByteString := beBytes 4 v

def putU64 (v : Nat) : ByteString := beBytes 8 v

def putString (value : ByteString) : ByteString := putU32 value.length ++ value

def putBlob (value : ByteString) : ByteString := putU64 value.length ++ value

variable {α : Type}

/-- A count and the items, each checked before it is appended. -/
def encodeItems (max : Nat) (tooMany : String) (check : α → Except Failure Unit) (bytes : α → ByteString)
    (items : List α) (b : ByteString) : Except Failure ByteString :=
  if max < items.length then .error (.told tooMany)
  else do
    let b ← items.foldlM (fun b a => do
      check a
      .ok (b ++ bytes a)) (b ++ putU32 items.length)
    if b.length ≤ kMaxMessageBytes then .ok b else .error .silent

variable {max : Nat} {tooMany : String} {check : α → Except Failure Unit} {bytes : α → ByteString} {items : List α}
  {b c : ByteString}

theorem foldlM_append (items : List α) :
    (items.foldlM (fun b a => do
      check a
      .ok (b ++ bytes a)) b : Except Failure ByteString) = .ok c ↔
      (∀ a ∈ items, check a = .ok ()) ∧ c = b ++ items.flatMap bytes := by
  induction items generalizing b with
  | nil =>
    constructor
    · intro h
      cases h
      simp
    · rintro ⟨-, rfl⟩
      simp
      rfl
  | cons a items ih =>
    rw [foldlM_cons, forall_mem_cons, flatMap_cons]
    cases hcheck : check a with
    | error e =>
      refine iff_of_false nofun ?_
      rintro ⟨⟨h, -⟩, -⟩
      cases h
    | ok u =>
      refine ih.trans ?_
      rw [append_assoc]
      simp

theorem encodeItems_eq_ok : encodeItems max tooMany check bytes items b = .ok c ↔
    items.length ≤ max ∧ (∀ a ∈ items, check a = .ok ()) ∧
      c = b ++ (putU32 items.length ++ items.flatMap bytes) ∧ c.length ≤ kMaxMessageBytes := by
  rw [encodeItems]
  by_cases hlen : max < items.length
  · rw [if_pos hlen]
    refine iff_of_false nofun ?_
    rintro ⟨h, -⟩
    omega
  · rw [if_neg hlen]
    constructor
    · intro h
      obtain ⟨b', hb', h⟩ := bind_eq_ok h
      obtain ⟨hall, rfl⟩ := (foldlM_append items).mp hb'
      split at h
      · next hsize =>
        cases h
        exact ⟨not_lt.mp hlen, hall, append_assoc _ _ _, hsize⟩
      · cases h
    · rintro ⟨-, hall, rfl, hsize⟩
      rw [ok_bind ((foldlM_append items).mpr ⟨hall, rfl⟩), append_assoc, if_pos hsize]

/-- The elements of a shape, as the codec multiplies them up; none when it gives up. -/
def countElements : List Int → Nat → Option Nat
  | [], elements => some elements
  | d :: shape, elements =>
    if d < 0 ∨ kMaxTensorBytes < d.toNat ∨ (0 < d ∧ kMaxTensorBytes / d.toNat < elements) then none
    else countElements shape (elements * d.toNat)

/-- `checked_tensor` -/
def checkedTensor (t : Tensor) : Except Failure Unit :=
  if kMaxRank < t.shape.length then .error (.told "tensor rank exceeds limit")
  else
    let elementBytes := dtypeBytes t.dtype.toNat
    if elementBytes = 0 then .error (.told "unsupported tensor dtype")
    else
      match countElements t.shape 1 with
      | none => .error (.told "invalid tensor shape")
      | some elements =>
        let payloadBytes := elements * elementBytes
        if t.dtype = 1 ∧ (t.rawData ≠ [] ∨ elements ≠ t.data.length) then
          .error (.told "float32 tensor shape/data size mismatch")
        else if t.dtype ≠ 1 ∧ (t.data ≠ [] ∨ payloadBytes ≠ t.rawData.length) then
          .error (.told "raw tensor shape/data size mismatch")
        else if kMaxTensorBytes < payloadBytes then .error (.told "tensor too large")
        else .ok ()

def tensorBytes (t : Tensor) : ByteString :=
  putU32 t.dtype.toNat ++ (putU32 t.shape.length ++ (t.shape.flatMap (fun d => putU64 d.toNat) ++
    (putU64 (if t.dtype = 1 then t.data.length else t.rawData.length / dtypeBytes t.dtype.toNat) ++ t.payload)))

/-- `encode_tensors` -/
def encodeTensors (ts : List Tensor) (b : ByteString) : Except Failure ByteString :=
  encodeItems kMaxTensors "too many tensors" checkedTensor tensorBytes ts b

def eventBytes (event : ProfileEvent) : ByteString :=
  putString event.name ++ (putString event.category ++ (putU64 event.startUs.toNat ++
    (putU64 event.durationUs.toNat ++ putString event.detail)))

def checkedEvent (event : ProfileEvent) : Except Failure Unit :=
  if event.name = [] ∨ kMaxProfileNameBytes < event.name.length ∨ kMaxProfileNameBytes < event.category.length ∨
      kMaxProfileDetailBytes < event.detail.length then .error (.told "invalid profile event string")
  else .ok ()

/-- `encode_profile` -/
def encodeProfile (events : List ProfileEvent) (b : ByteString) : Except Failure ByteString :=
  encodeItems kMaxProfileEvents "too many profile events" checkedEvent eventBytes events b

/-- `encode_request_bytes` -/
def encodeRequestBytes (request : Request) : Except Failure ByteString := do
  if request.op = [] ∨ kMaxOpBytes < request.op.length then .error (.told "invalid operation")
  else
    let b := putU64 request.requestId.toNat ++ putString request.op
    if kMaxArtifactIdBytes < request.artifactId.length ∨ kMaxArtifactBytes < request.artifact.length then
      .error (.told "artifact request too large")
    else
      let b := b ++ putString request.artifactId ++ putBlob request.model ++ putBlob request.artifact ++
        putU32 request.profiling.code
      let b ← encodeTensors request.inputs b
      if b.length ≤ kMaxMessageBytes then .ok b else .error .silent

/-- `encode_response_bytes` -/
def encodeResponseBytes (response : Response) : Except Failure ByteString := do
  let b := putU64 response.requestId.toNat
  if response.ok = false then
    if kMaxProfileDetailBytes * 4 < response.error.length then .error (.told "error response too large")
    else .ok (b ++ putString response.error)
  else if kMaxArtifactIdBytes < response.artifactId.length ∨ kMaxArtifactBytes < response.artifact.length ∨
      kMaxManifestBytes < response.manifest.length then .error (.told "compile response metadata too large")
  else
    let b ← encodeTensors response.outputs b
    let b ← encodeProfile response.profile b
    let b := b ++ putString response.artifactId ++ putString response.manifest ++ putBlob response.artifact
    if b.length ≤ kMaxMessageBytes then .ok b else .error .silent

/-- `encode_request_payload` -/
def encodeRequestPayload (request : Request) : Except Failure ByteString := encodeRequestBytes request

/-- `encode_response_payload` -/
def encodeResponsePayload (response : Response) : Except Failure ByteString := do
  let bytes ← encodeResponseBytes response
  .ok ((if response.ok then 1 else 0) :: bytes)

/-- What `send_message` writes. -/
def sendMessage (kind : Nat) (payload : ByteString) : Except Failure ByteString :=
  if kMaxMessageBytes < payload.length then .error (.told "message too large")
  else .ok (beBytes 4 kMagic ++ (beBytes 2 kVersion ++ (beBytes 2 kind ++ (beBytes 8 payload.length ++ payload))))

/-- `send_request` -/
def sendRequest (request : Request) : Except Failure ByteString := do
  let b ← encodeRequestBytes request
  sendMessage kRun b

/-- `send_response` -/
def sendResponse (response : Response) : Except Failure ByteString := do
  let b ← encodeResponseBytes response
  if response.ok = false then sendMessage kError b else sendMessage kOk b

def tensorsBytes (ts : List Tensor) : ByteString := putU32 ts.length ++ ts.flatMap tensorBytes

def profileBytes (events : List ProfileEvent) : ByteString := putU32 events.length ++ events.flatMap eventBytes

def requestBytes (r : Request) : ByteString :=
  putU64 r.requestId.toNat ++ (putString r.op ++ (putString r.artifactId ++ (putBlob r.model ++
    (putBlob r.artifact ++ (putU32 r.profiling.code ++ tensorsBytes r.inputs)))))

/-- The limits that a request keeps. -/
structure RequestOk (r : Request) : Prop where
  op : r.op ≠ [] ∧ r.op.length ≤ kMaxOpBytes
  artifactId : r.artifactId.length ≤ kMaxArtifactIdBytes
  artifact : r.artifact.length ≤ kMaxArtifactBytes
  inputs : r.inputs.length ≤ kMaxTensors
  tensors : ∀ t ∈ r.inputs, checkedTensor t = .ok ()

theorem encodeRequestBytes_eq_ok {r : Request} :
    encodeRequestBytes r = .ok b ↔ RequestOk r ∧ b = requestBytes r ∧ b.length ≤ kMaxMessageBytes := by
  rw [encodeRequestBytes]
  by_cases hop : r.op = [] ∨ kMaxOpBytes < r.op.length
  · rw [if_pos hop]
    refine iff_of_false nofun ?_
    rintro ⟨hok, -⟩
    rcases hop with hop | hop
    · exact absurd hop hok.op.1
    · exact absurd hop (not_lt.mpr hok.op.2)
  · rw [if_neg hop]
    rw [not_or, not_lt] at hop
    by_cases hart : kMaxArtifactIdBytes < r.artifactId.length ∨ kMaxArtifactBytes < r.artifact.length
    · dsimp only
      rw [if_pos hart]
      refine iff_of_false nofun ?_
      rintro ⟨hok, -⟩
      rcases hart with hart | hart
      · exact absurd hart (not_lt.mpr hok.artifactId)
      · exact absurd hart (not_lt.mpr hok.artifact)
    · dsimp only
      rw [if_neg hart]
      rw [not_or, not_lt, not_lt] at hart
      have hbytes : putU64 r.requestId.toNat ++ putString r.op ++ putString r.artifactId ++ putBlob r.model ++
          putBlob r.artifact ++ putU32 r.profiling.code ++
            (putU32 r.inputs.length ++ r.inputs.flatMap tensorBytes) = requestBytes r := by
        rw [requestBytes, tensorsBytes]
        simp only [append_assoc]
      constructor
      · intro h
        obtain ⟨b', hb', h⟩ := bind_eq_ok h
        obtain ⟨hlen, hall, rfl, hsize⟩ := encodeItems_eq_ok.mp hb'
        rw [if_pos hsize, hbytes] at h
        rw [hbytes] at hsize
        cases h
        exact ⟨⟨hop, hart.1, hart.2, hlen, hall⟩, rfl, hsize⟩
      · rintro ⟨hok, rfl, hsize⟩
        have henc : encodeTensors r.inputs (putU64 r.requestId.toNat ++ putString r.op ++ putString r.artifactId ++
            putBlob r.model ++ putBlob r.artifact ++ putU32 r.profiling.code) = .ok (requestBytes r) :=
          encodeItems_eq_ok.mpr ⟨hok.inputs, hok.tensors, hbytes.symm, hsize⟩
        rw [ok_bind henc, if_pos hsize]

def responseBytes (r : Response) : ByteString :=
  putU64 r.requestId.toNat ++
    if r.ok = true then
      tensorsBytes r.outputs ++ (profileBytes r.profile ++ (putString r.artifactId ++ (putString r.manifest ++
        putBlob r.artifact)))
    else putString r.error

/-- The limits that an answer keeps. -/
structure ResponseOk (r : Response) : Prop where
  artifactId : r.artifactId.length ≤ kMaxArtifactIdBytes
  artifact : r.artifact.length ≤ kMaxArtifactBytes
  manifest : r.manifest.length ≤ kMaxManifestBytes
  outputs : r.outputs.length ≤ kMaxTensors
  tensors : ∀ t ∈ r.outputs, checkedTensor t = .ok ()
  profile : r.profile.length ≤ kMaxProfileEvents
  events : ∀ event ∈ r.profile, checkedEvent event = .ok ()

theorem encodeResponseBytes_error {r : Response} (hr : r.ok = false) :
    encodeResponseBytes r = .ok b ↔ r.error.length ≤ kMaxProfileDetailBytes * 4 ∧ b = responseBytes r := by
  rw [encodeResponseBytes, responseBytes, hr, if_pos rfl, if_neg Bool.false_ne_true]
  split
  · next hlong =>
    refine iff_of_false nofun ?_
    rintro ⟨h, -⟩
    omega
  · next hshort =>
    constructor
    · intro h
      cases h
      exact ⟨not_lt.mp hshort, rfl⟩
    · rintro ⟨-, rfl⟩
      rfl

theorem encodeResponseBytes_ok {r : Response} (hr : r.ok = true) :
    encodeResponseBytes r = .ok b ↔ ResponseOk r ∧ b = responseBytes r ∧ b.length ≤ kMaxMessageBytes := by
  rw [encodeResponseBytes, responseBytes, hr, if_neg (Bool.noConfusion : true ≠ false), if_pos rfl]
  by_cases hmeta : kMaxArtifactIdBytes < r.artifactId.length ∨ kMaxArtifactBytes < r.artifact.length ∨
      kMaxManifestBytes < r.manifest.length
  · rw [if_pos hmeta]
    refine iff_of_false nofun ?_
    rintro ⟨hok, -⟩
    rcases hmeta with h | h | h
    · exact absurd h (not_lt.mpr hok.artifactId)
    · exact absurd h (not_lt.mpr hok.artifact)
    · exact absurd h (not_lt.mpr hok.manifest)
  · rw [if_neg hmeta]
    rw [not_or, not_or, not_lt, not_lt, not_lt] at hmeta
    obtain ⟨hid, hartifact, hmanifest⟩ := hmeta
    constructor
    · intro h
      obtain ⟨b₁, hb₁, h⟩ := bind_eq_ok h
      obtain ⟨b₂, hb₂, h⟩ := bind_eq_ok h
      obtain ⟨hlen, htensors, rfl, -⟩ := encodeItems_eq_ok.mp hb₁
      obtain ⟨hlen', hevents, rfl, -⟩ := encodeItems_eq_ok.mp hb₂
      dsimp only at h
      split at h
      · next hsize =>
        cases h
        refine ⟨⟨hid, hartifact, hmanifest, hlen, htensors, hlen', hevents⟩, ?_, hsize⟩
        rw [tensorsBytes, profileBytes]
        simp only [append_assoc]
      · cases h
    · rintro ⟨hok, rfl, hsize⟩
      have hbytes : putU64 r.requestId.toNat ++ tensorsBytes r.outputs ++ profileBytes r.profile ++
          putString r.artifactId ++ putString r.manifest ++ putBlob r.artifact = putU64 r.requestId.toNat ++
            (tensorsBytes r.outputs ++ (profileBytes r.profile ++ (putString r.artifactId ++
              (putString r.manifest ++ putBlob r.artifact)))) := by
        simp only [append_assoc]
      rw [← hbytes] at hsize ⊢
      have hsize₂ : (putU64 r.requestId.toNat ++ tensorsBytes r.outputs ++ profileBytes r.profile).length ≤
          kMaxMessageBytes := by
        simp only [length_append] at hsize ⊢
        omega
      have hsize₁ : (putU64 r.requestId.toNat ++ tensorsBytes r.outputs).length ≤ kMaxMessageBytes := by
        simp only [length_append] at hsize₂ ⊢
        omega
      have htensors : encodeTensors r.outputs (putU64 r.requestId.toNat) =
          .ok (putU64 r.requestId.toNat ++ tensorsBytes r.outputs) :=
        encodeItems_eq_ok.mpr ⟨hok.outputs, hok.tensors, rfl, hsize₁⟩
      have hprofile : encodeProfile r.profile (putU64 r.requestId.toNat ++ tensorsBytes r.outputs) =
          .ok (putU64 r.requestId.toNat ++ tensorsBytes r.outputs ++ profileBytes r.profile) :=
        encodeItems_eq_ok.mpr ⟨hok.profile, hok.events, rfl, hsize₂⟩
      rw [ok_bind htensors, ok_bind hprofile]
      exact if_pos hsize

end Onnxsim.Wire.Encoders
