import Onnxsim.Lib.Readers
import Onnxsim.Wire.Encoders

namespace Onnxsim.Wire.Decoders

open Lib.Bytes Lib.Readers Messages Encoders

abbrev Decoder (α : Type) := Reader Byte Failure α

def ensure (p : Prop) [Decidable p] (e : Failure) : Decoder Unit := fun c => if p then .ok ((), c) else .error e

/-- `at + n <= b.size()` -/
def ensureLeft (n : Nat) (e : Failure) : Decoder Unit := fun c =>
  if n ≤ c.rest.length then .ok ((), c) else .error e

/-- `std::memcpy` from the buffer, and `at += n`. -/
def copy (n : Nat) : Decoder ByteString := fun c =>
  if n ≤ c.rest.length then .ok (c.rest.take n, ⟨c.pos + n, c.rest.drop n⟩) else .error .stray

def takeBytes (n : Nat) (e : Failure) : Decoder ByteString := do
  ensureLeft n e
  copy n

/-- `take_u32` and `take_u64`, by the number of bytes. -/
def takeNumber (k : Nat) (e : Failure) : Decoder Nat := do
  let bytes ← takeBytes k e
  pure (ofBE bytes)

def takeU32 : Failure → Decoder Nat := takeNumber 4

def takeU64 : Failure → Decoder Nat := takeNumber 8

/-- `take_string` -/
def takeString (maxBytes : Nat) (e : Failure) : Decoder ByteString := do
  let n ← takeU32 e
  ensure (n ≤ maxBytes) e
  takeBytes n e

def takeBlob (maxBytes : Nat) (e : Failure) : Decoder ByteString := do
  let n ← takeU64 e
  ensure (n ≤ maxBytes) e
  takeBytes n e

def decodeDims : Nat → Nat → Decoder (List Int × Nat)
  | 0, elements => pure ([], elements)
  | rank + 1, elements => do
    let ud ← takeU64 (.told "invalid tensor dimension")
    ensure (ud ≤ kMaxTensorBytes ∧ ¬(0 < ud ∧ kMaxTensorBytes / ud < elements)) (.told "invalid tensor dimension")
    let (shape, n) ← decodeDims rank (elements * ud)
    pure ((ud : Int) :: shape, n)

/-- One round of the loop of `decode_tensors`, into a tensor that is already there. -/
def decodeTensor (t : Tensor) : Decoder Tensor := do
  let dtype ← takeU32 (.told "invalid tensor dtype")
  ensure (dtype ≤ 255 ∧ dtypeBytes dtype ≠ 0) (.told "invalid tensor dtype")
  let rank ← takeU32 (.told "invalid tensor rank")
  ensure (rank ≤ kMaxRank) (.told "invalid tensor rank")
  let (shape, elements) ← decodeDims rank 1
  let elementBytes := dtypeBytes dtype
  let n ← takeU64 (.told "invalid tensor payload")
  ensure (n = elements ∧ n ≤ kMaxTensorBytes / elementBytes) (.told "invalid tensor payload")
  let bytes ← takeBytes (n * elementBytes) (.told "invalid tensor payload")
  if dtype = 1 then pure { t with dtype := UInt8.ofNat dtype, shape := shape, data := wordsOf n bytes }
  else pure { t with dtype := UInt8.ofNat dtype, shape := shape, rawData := bytes }

/-- `std::vector::resize` -/
def resize {α : Type} (n : Nat) (fresh : α) (l : List α) : List α := l.take n ++ List.replicate (n - l.length) fresh

/-- `decode_tensors` -/
def decodeTensors (ts : List Tensor) : Decoder (List Tensor) := do
  let count ← takeU32 (.told "invalid tensor count")
  ensure (count ≤ kMaxTensors) (.told "invalid tensor count")
  readEach decodeTensor (resize count {} ts)

def decodeEvent (_ : ProfileEvent) : Decoder ProfileEvent := do
  let name ← takeString kMaxProfileNameBytes (.told "invalid profile event")
  ensure (name ≠ []) (.told "invalid profile event")
  let category ← takeString kMaxProfileNameBytes (.told "invalid profile event")
  let startUs ← takeU64 (.told "invalid profile event")
  let durationUs ← takeU64 (.told "invalid profile event")
  let detail ← takeString kMaxProfileDetailBytes (.told "invalid profile event")
  pure ⟨name, category, UInt64.ofNat startUs, UInt64.ofNat durationUs, detail⟩

/-- `decode_profile` -/
def decodeProfile (events : List ProfileEvent) : Decoder (List ProfileEvent) := do
  let count ← takeU32 (.told "invalid profile event count")
  ensure (count ≤ kMaxProfileEvents) (.told "invalid profile event count")
  readEach decodeEvent (resize count ⟨[], [], 0, 0, []⟩ events)

def atEnd (e : Failure) : Decoder Unit := fun c => if c.rest = [] then .ok ((), c) else .error e

def readRequest (request : Request) : Decoder Request := do
  let requestId ← takeU64 (.told "missing request id")
  let opLen ← takeU32 (.told "invalid operation")
  ensure (opLen ≠ 0 ∧ opLen ≤ kMaxOpBytes) (.told "invalid operation")
  let op ← takeBytes opLen (.told "invalid operation")
  let artifactId ← takeString kMaxArtifactIdBytes (.told "invalid artifact id")
  let model ← takeBlob kMaxMessageBytes (.told "invalid model payload")
  let artifact ← takeBlob kMaxArtifactBytes (.told "invalid artifact payload")
  let profiling ← takeU32 (.told "invalid profiling level")
  ensure (profiling ≤ ProfilingLevel.detailed.code) (.told "invalid profiling level")
  let inputs ← decodeTensors request.inputs
  pure ⟨UInt64.ofNat requestId, op, model, artifactId, artifact, inputs, ProfilingLevel.ofCode profiling⟩

def readError (response : Response) : Decoder Response := do
  let requestId ← takeU64 (.told "missing response request id")
  let error ← takeString (kMaxProfileDetailBytes * 4) (.told "invalid error response")
  pure { response with requestId := UInt64.ofNat requestId, ok := false, error := error }

def readOk (response : Response) : Decoder Response := do
  let requestId ← takeU64 (.told "missing response request id")
  let outputs ← decodeTensors response.outputs
  let profile ← decodeProfile response.profile
  let artifactId ← takeString kMaxArtifactIdBytes (.suggests "invalid compile response metadata")
  let manifest ← takeString kMaxManifestBytes (.suggests "invalid compile response metadata")
  let artifact ← takeBlob kMaxArtifactBytes (.told "invalid compile response artifact")
  pure ⟨UInt64.ofNat requestId, true, [], outputs, profile, artifactId, artifact, manifest⟩

def decodeAll {α : Type} (p : Decoder α) (e : Failure) (b : ByteString) : Except Failure α :=
  match (do
    let a ← p
    atEnd e
    pure a : Decoder α) ⟨0, b⟩ with
  | .ok (a, _) => .ok a
  | .error e => .error e

/-- `decode_request_bytes` -/
def decodeRequestBytes (b : ByteString) (request : Request) : Except Failure Request :=
  decodeAll (readRequest request) (.suggests "trailing request bytes") b

/-- `decode_response_bytes` -/
def decodeResponseBytes (b : ByteString) (ok : Bool) (response : Response) : Except Failure Response :=
  if ok = false then decodeAll (readError response) (.told "invalid error response") b
  else decodeAll (readOk response) .silent b

/-- `decode_request_payload` -/
def decodeRequestPayload (data : ByteString) (request : Request) : Except Failure Request :=
  if kMaxMessageBytes < data.length then .error (.told "invalid request payload")
  else decodeRequestBytes data request

/-- `decode_response_payload`; the first byte is the status. -/
def decodeResponsePayload (data : ByteString) (response : Response) : Except Failure Response :=
  if kMaxMessageBytes < data.length then .error (.told "invalid response payload")
  else
    match data with
    | [] => .error (.told "empty response payload")
    | status :: bytes => decodeResponseBytes bytes (decide (status ≠ 0)) response

/-- `read_all`: what has come in lies in chunks, and one `recv` takes from one chunk. -/
def readAll : List ByteString → Nat → Option (ByteString × List ByteString)
  | chunks, 0 => some ([], chunks)
  | [], _ + 1 => none
  | chunk :: chunks, n + 1 =>
    if chunk = [] then none
    else if chunk.length ≤ n + 1 then
      (readAll chunks (n + 1 - chunk.length)).map fun r => (chunk ++ r.1, r.2)
    else some (chunk.take (n + 1), chunk.drop (n + 1) :: chunks)

def receiveMessage (chunks : List ByteString) (kinds : List Nat) (name : String) :
    Except Failure (Nat × ByteString) := do
  let header (n : Nat) (chunks : List ByteString) : Except Failure (ByteString × List ByteString) :=
    (readAll chunks n).elim (.error (.told ("truncated " ++ name ++ " header"))) .ok
  let (magic, chunks) ← header 4 chunks
  let (version, chunks) ← header 2 chunks
  let (kind, chunks) ← header 2 chunks
  let (n, chunks) ← header 8 chunks
  if ofBE magic ≠ kMagic ∨ ofBE version ≠ kVersion ∨ ofBE kind ∉ kinds ∨ kMaxMessageBytes < ofBE n then
    .error (.told ("invalid " ++ name ++ " header"))
  else
    match readAll chunks (ofBE n) with
    | none => .error (.told ("truncated " ++ name))
    | some (b, _) => .ok (ofBE kind, b)

/-- `receive_request` -/
def receiveRequest (chunks : List ByteString) (request : Request) : Except Failure Request := do
  let (_, b) ← receiveMessage chunks [kRun] "message"
  decodeRequestBytes b request

/-- `receive_response` -/
def receiveResponse (chunks : List ByteString) (response : Response) : Except Failure Response := do
  let (kind, b) ← receiveMessage chunks [kOk, kError] "response"
  decodeResponseBytes b (decide (kind = kOk)) response

end Onnxsim.Wire.Decoders

namespace Onnxsim.Wire.Fields

open List Lib.Bytes Lib.Readers Messages Encoders Decoders

section

variable {e : Failure} {p : Prop} [Decidable p]

theorem readsIf_ensure : ReadsIf (ensure p e) [] () p := by
  intro pos ys
  constructor
  · intro h
    exact if_pos h
  · intro h
    exact ⟨e, if_neg h⟩

theorem parses_ensure : Parses (ensure p e) fun xs _ => xs = [] ∧ p := by
  intro c a c' h
  rw [ensure] at h
  split at h
  · next hp =>
    cases h
    exact ⟨[], rfl, rfl, hp⟩
  · cases h

theorem avoids_ensure (he : e ≠ .stray) : Avoids (ensure p e) .stray := by
  intro c h
  rw [ensure] at h
  split at h
  · cases h
  · cases h
    exact he rfl

theorem takeBytes_eq (n : Nat) (c : Cursor Byte) : takeBytes n e c =
    if n ≤ c.rest.length then .ok (c.rest.take n, ⟨c.pos + n, c.rest.drop n⟩) else .error e := by
  rw [takeBytes, run_bind, ensureLeft]
  by_cases hn : n ≤ c.rest.length
  · rw [if_pos hn, if_pos hn]
    exact if_pos hn
  · rw [if_neg hn, if_neg hn]

theorem readsIf_takeBytes {n : Nat} {xs : ByteString} (h : xs.length = n) : ReadsIf (takeBytes n e) xs xs True := by
  intro pos ys
  refine ⟨fun _ => ?_, fun hfalse => absurd trivial hfalse⟩
  subst h
  rw [takeBytes_eq, if_pos (by simp)]
  simp

theorem parses_takeBytes (n : Nat) : Parses (takeBytes n e) fun xs a => xs = a ∧ a.length = n := by
  intro c a c' h
  rw [takeBytes_eq] at h
  split at h
  · next hn =>
    cases h
    exact ⟨_, (take_append_drop n c.rest).symm, rfl, by rw [length_take, Nat.min_eq_left hn]⟩
  · cases h

theorem avoids_takeBytes (he : e ≠ .stray) (n : Nat) : Avoids (takeBytes n e) .stray := by
  intro c h
  rw [takeBytes_eq] at h
  split at h
  · cases h
  · cases h
    exact he rfl

theorem readsIf_takeNumber {k n : Nat} (h : n < 256 ^ k) : ReadsIf (takeNumber k e) (beBytes k n) n True := by
  have hpure : ReadsIf (pure (ofBE (beBytes k n)) : Decoder Nat) [] n True := by
    rw [ofBE_beBytes_of_lt h]
    exact readsIf_pure n
  have hseq := (readsIf_takeBytes (e := e) (beBytes_length k n)).seq (f := fun bytes => pure (ofBE bytes)) hpure
  rwa [append_nil] at hseq

theorem parses_takeNumber (k : Nat) : Parses (takeNumber k e) fun xs n => xs = beBytes k n ∧ n < 256 ^ k := by
  refine (parses_takeBytes k).bind ?_
  rintro xs a ⟨rfl, hlen⟩
  refine parses_pure ⟨?_, ?_⟩
  · rw [append_nil, ← hlen, beBytes_ofBE]
  · rw [← hlen]
    exact ofBE_lt xs

theorem avoids_takeNumber (he : e ≠ .stray) (k : Nat) : Avoids (takeNumber k e) .stray :=
  (avoids_takeBytes he k).bind fun _ => avoids_pure _ _

end

variable {e : Failure} {maxBytes : Nat} {s : ByteString}

theorem readsIf_takeString (hmax : maxBytes < 256 ^ 4) (h : s.length ≤ maxBytes) :
    ReadsIf (takeString maxBytes e) (putString s) s True :=
  (readsIf_takeNumber (h.trans_lt hmax)).seq ((readsIf_ensure.iff (iff_true_intro h)).seq (readsIf_takeBytes rfl))

theorem parses_takeString : Parses (takeString maxBytes e) fun xs s => xs = putString s ∧ s.length ≤ maxBytes := by
  refine (parses_takeNumber 4).bind ?_
  rintro xs n ⟨rfl, -⟩
  refine parses_ensure.bind ?_
  rintro ys - ⟨rfl, hn⟩
  refine (parses_takeBytes n).mono ?_
  rintro zs a ⟨rfl, rfl⟩
  exact ⟨rfl, hn⟩

theorem avoids_takeString (he : e ≠ .stray) (maxBytes : Nat) : Avoids (takeString maxBytes e) .stray :=
  (avoids_takeNumber he 4).bind fun n => (avoids_ensure he).bind fun _ => avoids_takeBytes he n

theorem readsIf_takeBlob (hmax : maxBytes < 256 ^ 8) (h : s.length ≤ maxBytes) :
    ReadsIf (takeBlob maxBytes e) (putBlob s) s True :=
  (readsIf_takeNumber (h.trans_lt hmax)).seq ((readsIf_ensure.iff (iff_true_intro h)).seq (readsIf_takeBytes rfl))

theorem parses_takeBlob : Parses (takeBlob maxBytes e) fun xs s => xs = putBlob s ∧ s.length ≤ maxBytes := by
  refine (parses_takeNumber 8).bind ?_
  rintro xs n ⟨rfl, -⟩
  refine parses_ensure.bind ?_
  rintro ys - ⟨rfl, hn⟩
  refine (parses_takeBytes n).mono ?_
  rintro zs a ⟨rfl, rfl⟩
  exact ⟨rfl, hn⟩

theorem avoids_takeBlob (he : e ≠ .stray) (maxBytes : Nat) : Avoids (takeBlob maxBytes e) .stray :=
  (avoids_takeNumber he 8).bind fun n => (avoids_ensure he).bind fun _ => avoids_takeBytes he n

variable {α : Type} {p : Decoder α} {b : ByteString}

theorem decodeAll_of_readsIf {a : α} {C : Prop} (h : ReadsIf p b a C) :
    (C → decodeAll p e b = .ok a) ∧ (¬C → ∃ e', decodeAll p e b = .error e') := by
  obtain ⟨hok, herr⟩ := h 0 []
  rw [append_nil] at hok herr
  constructor
  · intro hc
    have hend : atEnd e ⟨0 + b.length, []⟩ = .ok ((), ⟨0 + b.length, []⟩) := if_pos rfl
    rw [decodeAll, run_bind_ok (hok hc), run_bind_ok hend]
    rfl
  · intro hc
    obtain ⟨e', he'⟩ := herr hc
    refine ⟨e', ?_⟩
    rw [decodeAll, run_bind, he']

theorem of_decodeAll {a : α} {R : ByteString → α → Prop} (hp : Parses p R) (h : decodeAll p e b = .ok a) : R b a := by
  rw [decodeAll] at h
  split at h
  · next a' c' hrun =>
    cases h
    rw [run_bind] at hrun
    split at hrun
    · cases hrun
    · next a₁ c₁ hp₁ =>
      obtain ⟨xs, hxs, hR⟩ := hp _ _ _ hp₁
      rw [run_bind] at hrun
      split at hrun
      · cases hrun
      · next u c₂ hend =>
        rw [atEnd] at hend
        split at hend
        · next hnil =>
          cases hrun
          rw [hnil, append_nil] at hxs
          cases hxs
          exact hR
        · cases hend
  · cases h

theorem decodeAll_ne_stray (hp : Avoids p .stray) (he : e ≠ .stray) : decodeAll p e b ≠ .error .stray := by
  intro h
  rw [decodeAll] at h
  split at h
  · cases h
  · next e' hrun =>
    cases h
    refine (hp.bind fun a => Avoids.bind (f := fun _ => pure a) ?_ fun _ => avoids_pure a _) _ hrun
    intro c hc
    rw [atEnd] at hc
    split at hc
    · cases hc
    · cases hc
      exact he rfl

end Onnxsim.Wire.Fields
