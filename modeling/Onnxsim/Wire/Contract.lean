import Onnxsim.Wire.Answers

namespace Onnxsim.Wire.Contract

open List Lib.Bytes Lib.Results Messages Encoders
open Decoders Fields Tensors RoundTrip Sockets
open Client Interop Answers

section

variable {r a dest : Request} {b : ByteString}

theorem merged_eq (hr : RequestOk r) (dest : Request) :
    ({ r with inputs := mergeAll dest.inputs r.inputs } : Request) = r ↔ ¬Stale dest.inputs r.inputs := by
  rw [← mergeAll_eq fun t ht => (checkedTensor_eq_ok.mp (hr.tensors t ht)).1]
  constructor
  · intro h
    exact congrArg Request.inputs h
  · intro h
    rw [h]

theorem decodeRequestBytes_of_encoded (h : encodeRequestBytes r = .ok b) (dest : Request) :
    decodeRequestBytes b dest = .ok { r with inputs := mergeAll dest.inputs r.inputs } := by
  obtain ⟨hok, rfl, hsize⟩ := encodeRequestBytes_eq_ok.mp h
  exact (decodeRequestBytes_sized (sized_of_ok hok hsize) dest).1 (fit_of_ok hok)

/-- The bytes of a request are decoded to it, as a payload and from a socket. -/
def RequestTrips (r : Request) (b : ByteString) (dest : Request) : Prop :=
  decodeRequestPayload b dest = .ok r ∧
    ∃ message, sendRequest r = .ok message ∧ ∀ chunks, Delivers chunks message → receiveRequest chunks dest = .ok r

theorem requestTrips_iff (h : encodeRequestBytes r = .ok b) (dest : Request) :
    RequestTrips r b dest ↔ ¬Stale dest.inputs r.inputs := by
  obtain ⟨hok, rfl, hsize⟩ := encodeRequestBytes_eq_ok.mp h
  have hdecode := decodeRequestBytes_of_encoded h dest
  have hpayload : decodeRequestPayload (requestBytes r) dest = decodeRequestBytes (requestBytes r) dest :=
    if_neg (not_lt.mpr hsize)
  rw [← merged_eq hok dest, RequestTrips, hpayload, hdecode, Except.ok.injEq]
  constructor
  · rintro ⟨hr, -⟩
    exact hr
  · intro hr
    obtain ⟨message, hsend⟩ := exists_sendMessage kRun hsize
    refine ⟨hr, message, (ok_bind h _).trans hsend, fun chunks hdel => ?_⟩
    rw [receiveRequest_of_sent hsend hdel, hdecode, hr]

/-- Bytes that are accepted are the encoding of a request, the one that comes back if nothing stale is left. -/
theorem request_accepted (h : decodeRequestPayload b dest = .ok a) :
    ∃ r, Encoders.encodeRequestPayload r = .ok b ∧ (a = r ↔ ¬Stale dest.inputs r.inputs) := by
  rw [decodeRequestPayload] at h
  split at h
  · cases h
  · next hsize =>
    obtain ⟨r, rfl, rfl, hok⟩ := of_decodeRequestBytes h
    exact ⟨r, encodeRequestBytes_eq_ok.mpr ⟨hok, rfl, not_lt.mp hsize⟩, merged_eq hok dest⟩

theorem request_received {chunks : List ByteString} (h : receiveRequest chunks dest = .ok a) :
    ∃ r message rest, sendRequest r = .ok message ∧ chunks.flatten = message ++ rest ∧
      (a = r ↔ ¬Stale dest.inputs r.inputs) := by
  obtain ⟨⟨kind, b⟩, hmessage, h⟩ := bind_eq_ok h
  obtain ⟨hkind, message, rest, hsend, hflat⟩ := of_receiveMessage hmessage
  cases mem_singleton.mp hkind
  obtain ⟨r, rfl, rfl, hok⟩ := of_decodeRequestBytes h
  have henc := encodeRequestBytes_eq_ok.mpr ⟨hok, rfl, (sendMessage_eq_ok.mp hsend).1⟩
  exact ⟨r, message, rest, (ok_bind henc _).trans hsend, hflat, merged_eq hok dest⟩

theorem request_reads_inside (b : ByteString) (dest : Request) :
    decodeRequestPayload b dest ≠ .error .stray := by
  rw [decodeRequestPayload]
  split
  · exact fun h => Failure.noConfusion (Except.error.inj h)
  · exact decodeAll_ne_stray (avoids_readRequest dest) Failure.noConfusion

end

variable {r a dest : Response} {b : ByteString}

/-- The answer that comes back: of an error only the id and the text. -/
structure SameResponse (r a : Response) : Prop where
  requestId : a.requestId = r.requestId
  ok : a.ok = r.ok
  error : r.ok = false → a.error = r.error
  whole : r.ok = true → a = r

/-- An answer has no text of an error unless it is one, and nothing stale is in its place. -/
def Returns (dest r : Response) : Prop := r.ok = true → r.error = [] ∧ ¬Stale dest.outputs r.outputs

theorem responseOk_sized (h : ResponseOk r) : ∀ t ∈ r.outputs, Sized t :=
  fun t ht => (checkedTensor_eq_ok.mp (h.tensors t ht)).1

theorem sameResponse_merged (hr : r.ok = true → ResponseOk r) (dest : Response) :
    SameResponse r (mergeResponse dest r) ↔ Returns dest r := by
  rw [Returns, mergeResponse]
  cases hok : r.ok with
  | false =>
    rw [if_neg Bool.false_ne_true]
    refine iff_of_true ⟨rfl, hok.symm, fun _ => rfl, by simp [hok]⟩ (by simp)
  | true =>
    rw [if_pos rfl, ← mergeAll_eq (responseOk_sized (hr hok))]
    constructor
    · intro h _
      have hwhole := h.whole hok
      exact ⟨(congrArg Response.error hwhole).symm, congrArg Response.outputs hwhole⟩
    · intro h
      obtain ⟨herror, houtputs⟩ := h rfl
      refine ⟨rfl, hok.symm, by simp [hok], fun _ => ?_⟩
      rw [houtputs, ← herror, ← hok]

theorem encoded_response (h : encodeResponseBytes r = .ok b) : b = responseBytes r ∧ (r.ok = true → ResponseOk r) ∧
    b.length ≤ kMaxMessageBytes ∧ ∀ dest, decodeResponseBytes b r.ok dest = .ok (mergeResponse dest r) := by
  cases hok : r.ok with
  | false =>
    obtain ⟨hlen, rfl⟩ := (encodeResponseBytes_error hok).mp h
    refine ⟨rfl, by simp, ?_, fun dest => ?_⟩
    · rw [responseBytes, hok, if_neg Bool.false_ne_true, length_append, putString, length_append]
      simp only [putU64, putU32, beBytes_length]
      have hmax : kMaxProfileDetailBytes * 4 + 12 ≤ kMaxMessageBytes := by decide
      omega
    · exact (decodeAll_of_readsIf (readsIf_readError hok hlen dest)).1 trivial
  | true =>
    obtain ⟨hr, rfl, hsize⟩ := (encodeResponseBytes_ok hok).mp h
    exact ⟨rfl, fun _ => hr, hsize, fun dest => (decodeAll_of_readsIf (readsIf_readOk hok hr dest)).1 trivial⟩

theorem sendResponse_eq (h : encodeResponseBytes r = .ok b) :
    sendResponse r = sendMessage (if r.ok = false then kError else kOk) b := by
  rw [sendResponse, ok_bind h]
  split <;> rfl

/-- The bytes of an answer are decoded to it from a socket. -/
def ResponseTrips (r dest : Response) : Prop := ∃ message, sendResponse r = .ok message ∧
  ∀ chunks, Delivers chunks message → ∃ a, receiveResponse chunks dest = .ok a ∧ SameResponse r a

theorem delivers_whole (message : ByteString) (h : message ≠ []) : Delivers [message] message :=
  ⟨fun _ hc => (mem_singleton.mp hc) ▸ h, by simp⟩

theorem responseTrips_iff (h : encodeResponseBytes r = .ok b) (dest : Response) :
    ResponseTrips r dest ↔ Returns dest r := by
  obtain ⟨-, hr, hsize, hdecode⟩ := encoded_response h
  rw [ResponseTrips, ← sameResponse_merged hr dest, sendResponse_eq h]
  obtain ⟨message, hsend⟩ := exists_sendMessage (if r.ok = false then kError else kOk) hsize
  constructor
  · rintro ⟨message, hsent, htrip⟩
    have hne : message ≠ [] := by
      rw [(sendMessage_eq_ok.mp hsent).2]
      exact append_ne_nil_of_left_ne_nil (by decide) _
    obtain ⟨a, ha, hsame⟩ := htrip [message] (delivers_whole message hne)
    rw [receiveResponse_of_sent hsent (delivers_whole message hne), hdecode, Except.ok.injEq] at ha
    rwa [ha]
  · intro hsame
    refine ⟨message, hsend, fun chunks hdel => ⟨_, ?_, hsame⟩⟩
    rw [receiveResponse_of_sent hsend hdel, hdecode]

def PayloadTrips (r : Response) (p : ByteString) (dest : Response) : Prop :=
  ∃ a, decodeResponsePayload p dest = .ok a ∧ SameResponse r a

theorem payloadTrips_iff {p : ByteString} (h : encodeResponsePayload r = .ok p) (dest : Response) :
    PayloadTrips r p dest ↔ p.length ≤ kMaxMessageBytes ∧ Returns dest r := by
  obtain ⟨b, hb, hp⟩ := bind_eq_ok h
  cases hp
  obtain ⟨-, hr, -, hdecode⟩ := encoded_response hb
  have hstatus : decide ((if r.ok = true then 1 else 0 : Byte) ≠ 0) = r.ok := by
    cases r.ok <;> decide
  rw [PayloadTrips, ← sameResponse_merged hr dest, decodeResponsePayload]
  by_cases hsize : kMaxMessageBytes < ((if r.ok = true then 1 else 0 : Byte) :: b).length
  · rw [if_pos hsize]
    constructor
    · rintro ⟨a, ha, -⟩
      cases ha
    · rintro ⟨hle, -⟩
      exact absurd hsize (not_lt.mpr hle)
  · rw [if_neg hsize, hstatus, hdecode]
    constructor
    · rintro ⟨a, ha, hsame⟩
      cases ha
      exact ⟨not_lt.mp hsize, hsame⟩
    · rintro ⟨-, hsame⟩
      exact ⟨_, rfl, hsame⟩

theorem response_accepted {status : Byte} (h : decodeResponsePayload (status :: b) dest = .ok a) :
    ∃ r, encodeResponseBytes r = .ok b ∧ r.ok = decide (status ≠ 0) ∧ (SameResponse r a ↔ Returns dest r) ∧
      (encodeResponsePayload r = .ok (status :: b) ↔ status = 0 ∨ status = 1) := by
  rw [decodeResponsePayload] at h
  split at h
  · cases h
  · next hsize =>
    have hlen : b.length ≤ kMaxMessageBytes := by
      rw [length_cons] at hsize
      omega
    have hpayload : ∀ r : Response, encodeResponseBytes r = .ok b → r.ok = decide (status ≠ 0) →
        (encodeResponsePayload r = .ok (status :: b) ↔ status = 0 ∨ status = 1) := by
      intro r hr hok
      rw [encodeResponsePayload, ok_bind hr, hok, Except.ok.injEq, List.cons.injEq]
      by_cases h0 : status = 0
      · simp [h0]
      · simp [h0, eq_comm]
    rw [decodeResponseBytes] at h
    by_cases h0 : status = 0
    · rw [decide_eq_false (not_not.mpr h0), if_pos rfl] at h
      obtain ⟨r, rfl, rfl, hok, hlong⟩ := of_decodeAll (parses_readError dest) h
      have hr := (encodeResponseBytes_error hok).mpr ⟨hlong, rfl⟩
      have hstatus : r.ok = decide (status ≠ 0) := by rw [hok, decide_eq_false (not_not.mpr h0)]
      exact ⟨r, hr, hstatus, sameResponse_merged (by simp [hok]) dest, hpayload r hr hstatus⟩
    · rw [decide_eq_true h0, if_neg (Bool.noConfusion : true ≠ false)] at h
      obtain ⟨r, rfl, rfl, hok, -, hgood⟩ := of_decodeAll (parses_readOk dest) h
      have hr := (encodeResponseBytes_ok hok).mpr ⟨hgood, rfl, hlen⟩
      have hstatus : r.ok = decide (status ≠ 0) := by rw [hok, decide_eq_true h0]
      exact ⟨r, hr, hstatus, sameResponse_merged (fun _ => hgood) dest, hpayload r hr hstatus⟩

theorem response_received {chunks : List ByteString} (h : receiveResponse chunks dest = .ok a) :
    ∃ r message rest, sendResponse r = .ok message ∧ chunks.flatten = message ++ rest ∧
      (SameResponse r a ↔ Returns dest r) := by
  obtain ⟨⟨kind, b⟩, hmessage, h⟩ := bind_eq_ok h
  obtain ⟨hkind, message, rest, hsend, hflat⟩ := of_receiveMessage hmessage
  dsimp only at h
  rw [decodeResponseBytes] at h
  rcases mem_cons.mp hkind with rfl | hkind
  · rw [if_neg (by decide)] at h
    obtain ⟨r, rfl, rfl, hok, -, hgood⟩ := of_decodeAll (parses_readOk dest) h
    have hr := (encodeResponseBytes_ok hok).mpr ⟨hgood, rfl, (sendMessage_eq_ok.mp hsend).1⟩
    refine ⟨r, message, rest, ?_, hflat, sameResponse_merged (fun _ => hgood) dest⟩
    rw [sendResponse_eq hr, hok]
    exact hsend
  · cases mem_singleton.mp hkind
    rw [if_pos (by decide)] at h
    obtain ⟨r, rfl, rfl, hok, hlong⟩ := of_decodeAll (parses_readError dest) h
    have hr := (encodeResponseBytes_error hok).mpr ⟨hlong, rfl⟩
    refine ⟨r, message, rest, ?_, hflat, sameResponse_merged (by simp [hok]) dest⟩
    rw [sendResponse_eq hr, hok]
    exact hsend

theorem response_reads_inside (p : ByteString) (dest : Response) :
    decodeResponsePayload p dest ≠ .error .stray := by
  cases p with
  | nil =>
    rw [decodeResponsePayload]
    split
    · exact fun h => Failure.noConfusion (Except.error.inj h)
    · exact fun h => Failure.noConfusion (Except.error.inj h)
  | cons status b =>
    rw [decodeResponsePayload]
    split
    · exact fun h => Failure.noConfusion (Except.error.inj h)
    · rw [decodeResponseBytes]
      split
      · exact decodeAll_ne_stray (avoids_readError dest) Failure.noConfusion
      · exact decodeAll_ne_stray (avoids_readOk dest) Failure.noConfusion

variable (replace : ByteString → String) (holds : Nat → List Nat → Bool) {message : ByteString}
  {chunks : List ByteString}

theorem answer_iff (h : encodeResponseBytes r = .ok b) (hutf : Utf8Response r) (hsend : sendResponse r = .ok message)
    (hdel : Delivers chunks message) :
    (∃ p, Client.receiveResponse replace holds chunks = .ok p ∧ SameAnswer r p) ↔
      (r.ok = true → ∀ t ∈ r.outputs, Holds holds t) := by
  obtain ⟨rfl, hr, -, -⟩ := encoded_response h
  rw [sendResponse_eq h] at hsend
  rw [receiveResponse_of_sent' replace holds hsend hdel, decodeResponse]
  have hsame := sameAnswer_pyResponse replace hutf
  cases hok : r.ok with
  | false =>
    rw [if_pos rfl]
    have hlen := ((encodeResponseBytes_error hok).mp h).1
    have hread := (decodeAll_of_readsIf (e := .told "invalid error response")
      (readsIf_readErrorResponse replace hok hlen hutf)).1 trivial
    exact iff_of_true ⟨_, hread, hsame⟩ (by simp)
  | true =>
    rw [if_neg (Bool.noConfusion : true ≠ false)]
    obtain ⟨hgood, hbad⟩ := decodeAll_of_readsIf (e := .told "trailing response bytes")
      (readsIf_readOkResponse replace holds hok (hr hok) hutf)
    constructor
    · rintro ⟨p, hp, -⟩ -
      by_contra hnot
      obtain ⟨e, he⟩ := hbad hnot
      rw [he] at hp
      cases hp
    · intro hall
      exact ⟨_, hgood (hall rfl), hsame⟩

/-- The codec: what is encoded comes back, what is accepted is an encoding, no read leaves the buffer, and the
client and the worker understand each other; each with the condition under which it holds. -/
theorem wire_codec_exact (dest : Request) (answer : Response) (replace : ByteString → String)
    (holds : Nat → List Nat → Bool) :
    (∀ r b, encodeRequestBytes r = .ok b → (RequestTrips r b dest ↔ ¬Stale dest.inputs r.inputs)) ∧
    (∀ r b, encodeResponseBytes r = .ok b → (ResponseTrips r answer ↔ Returns answer r)) ∧
    (∀ r p, encodeResponsePayload r = .ok p →
      (PayloadTrips r p answer ↔ p.length ≤ kMaxMessageBytes ∧ Returns answer r)) ∧
    (∀ b a, decodeRequestPayload b dest = .ok a →
      ∃ r, Encoders.encodeRequestPayload r = .ok b ∧ (a = r ↔ ¬Stale dest.inputs r.inputs)) ∧
    (∀ status b a, decodeResponsePayload (status :: b) answer = .ok a →
      ∃ r, encodeResponseBytes r = .ok b ∧ r.ok = decide (status ≠ 0) ∧ (SameResponse r a ↔ Returns answer r) ∧
        (encodeResponsePayload r = .ok (status :: b) ↔ status = 0 ∨ status = 1)) ∧
    (∀ chunks a, receiveRequest chunks dest = .ok a →
      ∃ r message rest, sendRequest r = .ok message ∧ chunks.flatten = message ++ rest ∧
        (a = r ↔ ¬Stale dest.inputs r.inputs)) ∧
    (∀ chunks a, Decoders.receiveResponse chunks answer = .ok a →
      ∃ r message rest, sendResponse r = .ok message ∧ chunks.flatten = message ++ rest ∧
        (SameResponse r a ↔ Returns answer r)) ∧
    (∀ b, decodeRequestPayload b dest ≠ .error .stray) ∧
    (∀ p, decodeResponsePayload p answer ≠ .error .stray) ∧
    (∀ r b, encodeRequest r = .ok b → ∀ chunks, Delivers chunks b →
      ((∃ c, receiveRequest chunks dest = .ok c ∧ SameRequest r c) ↔
        ∀ t ∈ r.inputs, (countElements (t.array.shape.map Int.ofNat) 1).isSome = true)) ∧
    ∀ r b message, encodeResponseBytes r = .ok b → Utf8Response r → sendResponse r = .ok message →
      ∀ chunks, Delivers chunks message →
        ((∃ p, Client.receiveResponse replace holds chunks = .ok p ∧ SameAnswer r p) ↔
          (r.ok = true → ∀ t ∈ r.outputs, Holds holds t)) := by
  refine ⟨fun r b h => requestTrips_iff h dest, fun r b h => responseTrips_iff h answer,
    fun r p h => payloadTrips_iff h answer, fun b a h => request_accepted h, fun status b a h => response_accepted h,
    fun chunks a h => request_received h, fun chunks a h => response_received h,
    fun b => request_reads_inside b dest, fun p => response_reads_inside p answer,
    fun r b h chunks hdel => receiveRequest_of_client h hdel dest, ?_⟩
  intro r b message h hutf hsend chunks hdel
  exact answer_iff replace holds h hutf hsend hdel

def addOne : Request := { op := [97], inputs := [{ shape := [1], data := [0] }] }

theorem encode_addOne : encodeRequestBytes addOne = .ok (requestBytes addOne) := by
  apply encodeRequestBytes_eq_ok.mpr
  refine ⟨⟨⟨by decide, by decide⟩, by decide, by decide, by decide, ?_⟩, rfl, by decide⟩
  intro t ht
  cases mem_singleton.mp ht
  exact checkedTensor_eq_ok.mpr ⟨⟨by decide, by decide, by decide, by decide, fun _ => ⟨rfl, rfl⟩,
    fun h => absurd rfl h⟩, rfl⟩

theorem addOne_trips : RequestTrips addOne (requestBytes addOne) {} :=
  ((wire_codec_exact {} {} (fun _ => "") fun _ _ => true).1 addOne _ encode_addOne).mpr (stale_nil _)

/-- In an object that held a byte tensor the byte stays. -/
theorem addOne_stale : ¬∀ r b, encodeRequestBytes r = .ok b → ∀ dest, RequestTrips r b dest := by
  intro h
  have htrip := h addOne _ encode_addOne { inputs := [{ shape := [1], dtype := 2, rawData := [7] }] }
  apply (requestTrips_iff encode_addOne _).mp htrip
  exact ⟨_, mem_singleton_self _, cons_ne_nil _ _⟩

end Onnxsim.Wire.Contract
