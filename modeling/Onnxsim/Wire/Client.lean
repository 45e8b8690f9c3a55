import Onnxsim.Wire.RoundTrip

namespace Onnxsim.Wire.Sockets

open List Option Lib.Bytes Lib.Results Messages Encoders Decoders

variable {xs : ByteString} {n : Nat}

/-- What has been sent, cut into chunks that are not empty. -/
structure Delivers (chunks : List ByteString) (sent : ByteString) : Prop where
  nonempty : ∀ chunk ∈ chunks, chunk ≠ []
  flatten : chunks.flatten = sent

theorem readAll_append {chunks : List ByteString} {ys : ByteString} (h : Delivers chunks (xs ++ ys)) :
    ∃ rest, readAll chunks xs.length = some (xs, rest) ∧ Delivers rest ys := by
  induction chunks generalizing xs with
  | nil =>
    obtain ⟨-, hflat⟩ := h
    obtain ⟨rfl, rfl⟩ := append_eq_nil_iff.mp hflat.symm
    exact ⟨[], rfl, by simp, rfl⟩
  | cons chunk chunks ih =>
    obtain ⟨hne, hflat⟩ := h
    obtain ⟨hchunk, hchunks⟩ := forall_mem_cons.mp hne
    cases xs with
    | nil => exact ⟨chunk :: chunks, rfl, hne, hflat⟩
    | cons x xs =>
      rw [length_cons, readAll, if_neg hchunk]
      rw [flatten_cons] at hflat
      rcases append_eq_append_iff.mp hflat with ⟨zs, hxs, hrest⟩ | ⟨zs, hc, hrest⟩
      · have hlen : chunk.length ≤ xs.length + 1 := by
          have hl := congrArg List.length hxs
          rw [length_cons, length_append] at hl
          omega
        have hzs : zs.length = xs.length + 1 - chunk.length := by
          have hl := congrArg List.length hxs
          rw [length_cons, length_append] at hl
          omega
        obtain ⟨rest, hread, hdel⟩ := ih ⟨hchunks, hrest⟩
        rw [if_pos hlen, ← hzs, hread, hxs]
        exact ⟨rest, rfl, hdel⟩
      · have hlen : chunk.length = xs.length + 1 + zs.length := by
          rw [hc, length_append, length_cons]
        by_cases hzs : zs = []
        · subst hzs
          rw [append_nil] at hc
          have hnil : Delivers chunks ([] ++ ys) := ⟨hchunks, hrest.symm⟩
          obtain ⟨rest, hread, hdel⟩ := ih hnil
          rw [length_nil, Nat.add_zero] at hlen
          rw [if_pos hlen.le, hlen, Nat.sub_self]
          rw [length_nil] at hread
          rw [hread, hc]
          exact ⟨rest, by simp, hdel⟩
        · have hpos : 0 < zs.length := length_pos_iff.mpr hzs
          rw [if_neg (by omega), hc]
          refine ⟨zs :: chunks, ?_, ?_, ?_⟩
          · simp
          · exact forall_mem_cons.mpr ⟨hzs, hchunks⟩
          · rw [flatten_cons, hrest]

theorem readAll_eq_some {chunks rest : List ByteString} (h : readAll chunks n = some (xs, rest)) :
    chunks.flatten = xs ++ rest.flatten ∧ xs.length = n := by
  induction chunks generalizing n xs with
  | nil =>
    cases n with
    | zero =>
      cases h
      exact ⟨rfl, rfl⟩
    | succ n => cases h
  | cons chunk chunks ih =>
    cases n with
    | zero =>
      cases h
      exact ⟨rfl, rfl⟩
    | succ n =>
      rw [readAll] at h
      split at h
      · cases h
      · split at h
        · next hlen =>
          obtain ⟨⟨ys, rest'⟩, hread, heq⟩ := map_eq_some_iff.mp h
          cases heq
          obtain ⟨hflat, hys⟩ := ih hread
          rw [flatten_cons, hflat, append_assoc, length_append, hys]
          exact ⟨rfl, by omega⟩
        · next hlen =>
          cases h
          rw [flatten_cons, flatten_cons, ← append_assoc, take_append_drop, length_take]
          exact ⟨rfl, by omega⟩

variable {kind : Nat} {payload message : ByteString} {chunks : List ByteString} {kinds : List Nat} {name : String}

theorem sendMessage_eq_ok : sendMessage kind payload = .ok message ↔ payload.length ≤ kMaxMessageBytes ∧
    message = beBytes 4 kMagic ++ (beBytes 2 kVersion ++ (beBytes 2 kind ++ (beBytes 8 payload.length ++ payload))) := by
  rw [sendMessage]
  split
  · next hlong =>
    refine iff_of_false nofun ?_
    rintro ⟨h, -⟩
    exact absurd hlong (not_lt.mpr h)
  · next hshort =>
    constructor
    · intro h
      cases h
      exact ⟨not_lt.mp hshort, rfl⟩
    · rintro ⟨-, rfl⟩
      rfl

theorem exists_sendMessage (kind : Nat) (h : payload.length ≤ kMaxMessageBytes) :
    ∃ message, sendMessage kind payload = .ok message := ⟨_, sendMessage_eq_ok.mpr ⟨h, rfl⟩⟩

theorem receiveMessage_of_sent (hkind : kind ∈ kinds) (hlt : kind < 256 ^ 2)
    (hsend : sendMessage kind payload = .ok message) (hdel : Delivers chunks message) :
    receiveMessage chunks kinds name = .ok (kind, payload) := by
  obtain ⟨hsize, rfl⟩ := sendMessage_eq_ok.mp hsend
  obtain ⟨c₁, h₁, hdel⟩ := readAll_append hdel
  obtain ⟨c₂, h₂, hdel⟩ := readAll_append hdel
  obtain ⟨c₃, h₃, hdel⟩ := readAll_append hdel
  obtain ⟨c₄, h₄, hdel⟩ := readAll_append hdel
  rw [← append_nil payload] at hdel
  obtain ⟨c₅, h₅, -⟩ := readAll_append hdel
  rw [beBytes_length] at h₁ h₂ h₃ h₄
  have hmagic : ofBE (beBytes 4 kMagic) = kMagic := ofBE_beBytes_of_lt (by decide)
  have hversion : ofBE (beBytes 2 kVersion) = kVersion := ofBE_beBytes_of_lt (by decide)
  have hcode : ofBE (beBytes 2 kind) = kind := ofBE_beBytes_of_lt hlt
  have hlen : ofBE (beBytes 8 payload.length) = payload.length := ofBE_beBytes_of_lt (hsize.trans_lt (by decide))
  rw [receiveMessage]
  dsimp only
  rw [h₁]
  dsimp only [elim_some, bind, Except.bind]
  rw [h₂]
  dsimp only [elim_some]
  rw [h₃]
  dsimp only [elim_some]
  rw [h₄]
  dsimp only [elim_some]
  rw [hmagic, hversion, hcode, hlen, h₅, if_neg]
  rw [not_or, not_or, not_or, not_not, not_not, not_not, not_lt]
  exact ⟨rfl, rfl, hkind, hsize⟩

theorem eq_beBytes {k : Nat} (hlen : xs.length = k) (h : ofBE xs = n) : xs = beBytes k n := by
  rw [← hlen, ← h, beBytes_ofBE]

theorem of_receiveMessage (h : receiveMessage chunks kinds name = .ok (kind, payload)) : kind ∈ kinds ∧
    ∃ message rest, sendMessage kind payload = .ok message ∧ chunks.flatten = message ++ rest := by
  rw [receiveMessage] at h
  obtain ⟨⟨magic, c₁⟩, h₁, h⟩ := bind_eq_ok h
  obtain ⟨⟨version, c₂⟩, h₂, h⟩ := bind_eq_ok h
  obtain ⟨⟨code, c₃⟩, h₃, h⟩ := bind_eq_ok h
  obtain ⟨⟨n, c₄⟩, h₄, h⟩ := bind_eq_ok h
  have hread : ∀ {k : Nat} {c c' : List ByteString} {xs : ByteString},
      (readAll c k).elim (.error (.told ("truncated " ++ name ++ " header"))) .ok =
        (.ok (xs, c') : Except Failure (ByteString × List ByteString)) → readAll c k = some (xs, c') := by
    intro k c c' xs hx
    cases hr : readAll c k with
    | none =>
      rw [hr] at hx
      cases hx
    | some r =>
      rw [hr] at hx
      cases hx
      rfl
  dsimp only at h
  split at h
  · cases h
  · next hheader =>
    rw [not_or, not_or, not_or, not_not, not_not, not_not, not_lt] at hheader
    obtain ⟨hmagic, hversion, hkind, hsize⟩ := hheader
    split at h
    · cases h
    · next b c₅ h₅ =>
      cases h
      obtain ⟨f₁, l₁⟩ := readAll_eq_some (hread h₁)
      obtain ⟨f₂, l₂⟩ := readAll_eq_some (hread h₂)
      obtain ⟨f₃, l₃⟩ := readAll_eq_some (hread h₃)
      obtain ⟨f₄, l₄⟩ := readAll_eq_some (hread h₄)
      obtain ⟨f₅, l₅⟩ := readAll_eq_some h₅
      refine ⟨hkind, _, c₅.flatten, sendMessage_eq_ok.mpr ⟨l₅.trans_le hsize, rfl⟩, ?_⟩
      rw [f₁, f₂, f₃, f₄, f₅, ← eq_beBytes l₁ hmagic, ← eq_beBytes l₂ hversion, ← eq_beBytes l₃ rfl,
        ← eq_beBytes l₄ l₅.symm]
      simp only [append_assoc]

theorem receiveRequest_of_sent (hsend : sendMessage kRun payload = .ok message) (hdel : Delivers chunks message)
    (dest : Request) : receiveRequest chunks dest = decodeRequestBytes payload dest := by
  rw [receiveRequest, ok_bind (receiveMessage_of_sent (mem_singleton_self _) (by decide) hsend hdel)]

theorem receiveResponse_of_sent {ok : Bool} (hsend : sendMessage (if ok = false then kError else kOk) payload = .ok message)
    (hdel : Delivers chunks message) (dest : Response) :
    receiveResponse chunks dest = decodeResponseBytes payload ok dest := by
  cases ok with
  | false =>
    rw [receiveResponse, ok_bind (receiveMessage_of_sent (show kError ∈ [kOk, kError] by simp) (by decide) hsend hdel)]
    rfl
  | true =>
    rw [receiveResponse, ok_bind (receiveMessage_of_sent (show kOk ∈ [kOk, kError] by simp) (by decide) hsend hdel)]
    rfl

end Onnxsim.Wire.Sockets

namespace Onnxsim.Wire.Client

open Lib.Bytes Lib.Readers Messages Encoders Decoders

/-- `str.encode` -/
def encodeText (s : String) : ByteString := s.toByteArray.data.toList.map fun c => c.toFin

/-- `bytes.decode` with `errors="replace"`; what stands for bytes that are not UTF-8 is a parameter. -/
def decodeText (replace : ByteString → String) (b : ByteString) : String :=
  (String.fromUTF8? ⟨(b.map UInt8.ofFin).toArray⟩).getD (replace b)

theorem fromUTF8?_encodeText (s : String) :
    String.fromUTF8? ⟨((encodeText s).map UInt8.ofFin).toArray⟩ = some s := by
  have hbytes : (⟨((encodeText s).map UInt8.ofFin).toArray⟩ : ByteArray) = s.toByteArray := by
    rw [encodeText, List.map_map]
    have hid : (UInt8.ofFin ∘ fun c : UInt8 => c.toFin) = id := rfl
    rw [hid, List.map_id]
  rw [hbytes, String.fromUTF8?, dif_pos s.isValidUTF8]
  rfl

theorem decodeText_encodeText (replace : ByteString → String) (s : String) :
    decodeText replace (encodeText s) = s := by
  rw [decodeText, fromUTF8?_encodeText]
  rfl

/-- The kinds of numpy's element types; only the first four have a native format character. -/
inductive Kind where
  | float | int | uint | bool | other
deriving DecidableEq

/-- An array with its contents in C order, little-endian. -/
structure NpArray where
  kind : Kind
  itemsize : Nat
  shape : List Nat
  bytes : ByteString
  length_bytes : bytes.length = shape.prod * itemsize

def NpArray.size (a : NpArray) : Nat := a.shape.prod

def NpArray.nbytes (a : NpArray) : Nat := a.size * a.itemsize

/-- `NUMPY_DTYPE`, and by it the element sizes. -/
def numpyDtype : Nat → Option (Kind × Nat)
  | 1 => some (.float, 4)
  | 2 => some (.uint, 1)
  | 3 => some (.int, 1)
  | 4 => some (.uint, 2)
  | 5 => some (.int, 2)
  | 6 => some (.int, 4)
  | 7 => some (.int, 8)
  | 9 => some (.bool, 1)
  | 10 => some (.float, 2)
  | 11 => some (.float, 8)
  | 12 => some (.uint, 4)
  | 13 => some (.uint, 8)
  | 16 => some (.uint, 2)
  | _ => none

/-- `_ONNX_OF_NUMPY` -/
def onnxOfNumpy : Kind → Nat → Option Nat
  | .float, 4 => some 1
  | .uint, 1 => some 2
  | .int, 1 => some 3
  | .uint, 2 => some 4
  | .int, 2 => some 5
  | .int, 4 => some 6
  | .int, 8 => some 7
  | .bool, 1 => some 9
  | .float, 2 => some 10
  | .float, 8 => some 11
  | .uint, 4 => some 12
  | .uint, 8 => some 13
  | _, _ => none

/-- An array to send, under the type of its elements or under another one. -/
inductive TensorLike where
  | plain (a : NpArray)
  | typed (dtype : Int) (a : NpArray)

def TensorLike.array : TensorLike → NpArray
  | .plain a => a
  | .typed _ a => a

/-- The type that `_as_tensor` starts from. -/
def TensorLike.dtype : TensorLike → Except Failure Int
  | .plain a =>
    match onnxOfNumpy a.kind a.itemsize with
    | some d => .ok d
    | none => .error (.told "numpy dtype has no transport dtype")
  | .typed d _ => .ok d

/-- `_as_tensor` -/
def asTensor (t : TensorLike) : Except Failure (Nat × NpArray) := do
  let dtype ← t.dtype
  if dtype < 0 then .error (.told ("unsupported tensor dtype " ++ toString dtype))
  else
    match numpyDtype dtype.toNat with
    | none => .error (.told ("unsupported tensor dtype " ++ toString dtype))
    | some (_, want) =>
      if t.array.itemsize ≠ want then .error (.told "array cannot be sent: element size differs")
      else .ok (dtype.toNat, t.array)

/-- `struct.pack` of an unsigned number; what does not fit raises. -/
def pack (k : Nat) (v : Int) : Except Failure ByteString :=
  if 0 ≤ v ∧ v.toNat < 256 ^ k then .ok (beBytes k v.toNat) else .error .silent

def u32 (v : Int) : Except Failure ByteString := pack 4 v

def u64 (v : Int) : Except Failure ByteString := pack 8 v

/-- One round of the loop of `encode_tensors_parts`. -/
def encodeTensor (t : TensorLike) : Except Failure ByteString := do
  let (dtype, a) ← asTensor t
  if kMaxRank < a.shape.length then .error (.told "tensor rank exceeds limit")
  else if kMaxTensorBytes < a.nbytes then .error (.told "tensor too large")
  else
    let d ← u32 dtype
    let n ← u32 a.shape.length
    let dims ← a.shape.mapM fun (d : Nat) => u64 d
    let size ← u64 a.size
    -- a view of the elements needs a format character
    if a.nbytes ≠ 0 ∧ a.kind = .other then .error .silent
    else .ok (d ++ (n ++ (dims.flatten ++ (size ++ a.bytes))))

/-- `encode_tensors` -/
def encodeTensors (ts : List TensorLike) : Except Failure ByteString := do
  if kMaxTensors < ts.length then .error (.told "too many tensors")
  else
    let n ← u32 ts.length
    let parts ← ts.mapM encodeTensor
    .ok (n ++ parts.flatten)

/-- The arguments of `encode_request`. -/
structure PyRequest where
  op : String
  inputs : List TensorLike
  artifactId : String
  model : ByteString
  artifact : ByteString
  profiling : Int
  requestId : Int

def encodeString (b : ByteString) : Except Failure ByteString := do
  let n ← u32 b.length
  .ok (n ++ b)

/-- `encode_request_payload` -/
def encodeRequestPayload (r : PyRequest) : Except Failure ByteString := do
  let opBytes := encodeText r.op
  if opBytes = [] ∨ kMaxOpBytes < opBytes.length then
    .error (.told ("invalid operation: " ++ toString opBytes.length ++ " bytes, the op field holds 1..128"))
  else if kMaxArtifactIdBytes < (encodeText r.artifactId).length then .error (.told "artifact request too large")
  else if r.profiling ∉ [0, 1, 2] then .error (.told "invalid profiling level")
  else
    let id ← u64 r.requestId
    let op ← encodeString opBytes
    let artifactId ← encodeString (encodeText r.artifactId)
    let modelLen ← u64 r.model.length
    let artifactLen ← u64 r.artifact.length
    let profiling ← u32 r.profiling
    let tensors ← encodeTensors r.inputs
    .ok (id ++ (op ++ (artifactId ++ ((modelLen ++ r.model) ++ ((artifactLen ++ r.artifact) ++ (profiling ++ tensors))))))

/-- `_message` -/
def message (kind : Nat) (body : ByteString) : Except Failure ByteString :=
  if kMaxMessageBytes < body.length then .error (.told "message too large")
  else .ok (beBytes 4 kMagic ++ (beBytes 2 kVersion ++ (beBytes 2 kind ++ (beBytes 8 body.length ++ body))))

/-- `encode_request` -/
def encodeRequest (r : PyRequest) : Except Failure ByteString := do
  let body ← encodeRequestPayload r
  message kRun body

/-- A decoded tensor: its ONNX type and the array. -/
structure PyTensor where
  dtype : Nat
  shape : List Nat
  bytes : ByteString
deriving DecidableEq

structure PyEvent where
  name : String
  category : String
  startUs : Nat
  durationUs : Nat
  detail : String
deriving DecidableEq

structure PyResponse where
  requestId : Nat
  ok : Bool
  error : String := ""
  outputs : List PyTensor := []
  profile : List PyEvent := []
  artifactId : String := ""
  manifest : String := ""
  artifact : ByteString := []
deriving DecidableEq

variable (replace : ByteString → String) (holds : Nat → List Nat → Bool)

def truncated : Failure := .told "truncated message"

/-- `_Reader.string` -/
def readString (limit : Nat) : Decoder String := do
  let n ← takeNumber 4 truncated
  ensure (n ≤ limit) (.told "string exceeds limit")
  let b ← takeBytes n truncated
  pure (decodeText replace b)

/-- `_Reader.blob` -/
def readBlob : Decoder ByteString := do
  let n ← takeNumber 8 truncated
  takeBytes n truncated

/-- One round of the loop of `_decode_tensors`. numpy makes no array whose size would overflow: `holds` says of an
element size and a shape whether it does. -/
def readTensor : Decoder PyTensor := do
  let dtype ← takeNumber 4 truncated
  let rank ← takeNumber 4 truncated
  match numpyDtype dtype with
  | none => fun _ => .error (.told ("invalid tensor dtype " ++ toString dtype))
  | some (_, itemsize) =>
    ensure (rank ≤ kMaxRank) (.told "invalid tensor rank")
    let shape ← readMany (takeNumber 8 truncated) rank
    let n ← takeNumber 8 truncated
    ensure (n = shape.prod ∧ n * itemsize ≤ kMaxTensorBytes) (.told "invalid tensor payload")
    let raw ← takeBytes (n * itemsize) truncated
    ensure (holds itemsize shape = true) .silent
    pure ⟨dtype, shape, raw⟩

/-- `_decode_tensors` -/
def readTensors : Decoder (List PyTensor) := do
  let count ← takeNumber 4 truncated
  ensure (count ≤ kMaxTensors) (.told "invalid tensor count")
  readMany (readTensor holds) count

def readEvent : Decoder PyEvent := do
  let name ← readString replace 128
  let category ← readString replace 128
  let startUs ← takeNumber 8 truncated
  let durationUs ← takeNumber 8 truncated
  let detail ← readString replace 512
  pure ⟨name, category, startUs, durationUs, detail⟩

def readOkResponse : Decoder PyResponse := do
  let requestId ← takeNumber 8 truncated
  let outputs ← readTensors holds
  let count ← takeNumber 4 truncated
  ensure (count ≤ kMaxProfileEvents) (.told "invalid profile event count")
  let profile ← readMany (readEvent replace) count
  let artifactId ← readString replace kMaxArtifactIdBytes
  let manifest ← readString replace kMaxManifestBytes
  let artifact ← readBlob
  pure ⟨requestId, true, "", outputs, profile, artifactId, manifest, artifact⟩

def readErrorResponse : Decoder PyResponse := do
  let requestId ← takeNumber 8 truncated
  let error ← readString replace (4 * 512)
  pure ⟨requestId, false, error, [], [], "", "", []⟩

/-- `decode_response_payload` -/
def decodeResponse (body : ByteString) (ok : Bool) : Except Failure PyResponse :=
  if ok = false then decodeAll (readErrorResponse replace) (.told "invalid error response") body
  else decodeAll (readOkResponse replace holds) (.told "trailing response bytes") body

/-- `_recv_message` -/
def recvMessage (chunks : List ByteString) (kinds : List Nat) : Except Failure (Nat × ByteString) :=
  match readAll chunks 16 with
  | none => .error (.told "connection closed")
  | some (header, chunks) =>
    let magic := ofBE (header.take 4)
    let version := ofBE ((header.drop 4).take 2)
    let kind := ofBE ((header.drop 6).take 2)
    let n := ofBE (header.drop 8)
    if magic ≠ kMagic ∨ version ≠ kVersion ∨ kind ∉ kinds ∨ kMaxMessageBytes < n then
      .error (.told "invalid message header")
    else
      match readAll chunks n with
      | none => .error (.told "connection closed")
      | some (b, _) => .ok (kind, b)

/-- `receive_response` -/
def receiveResponse (chunks : List ByteString) : Except Failure PyResponse := do
  let (kind, body) ← recvMessage chunks [kOk, kError]
  decodeResponse replace holds body (decide (kind = kOk))

end Onnxsim.Wire.Client
