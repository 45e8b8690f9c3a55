import Onnxsim.Lib.JsonText
import Onnxsim.Wire.Client

namespace Onnxsim.Rpc.Protocol

open List Lib.Bytes
open Lib.JsonStrings
open Lib.JsonText
open Wire.Client (encodeText fromUTF8?_encodeText)
open Wire.Sockets (Delivers)

def maxHeaderBytes : Nat := 64 * 1024 * 1024

def maxBlobs : Nat := 1000000

inductive Failure where
  | connectionClosed
  | headerLimits
  | blobLimit (length maxBlobBytes : Nat)
  | notJson
  | pack
  | fewerBlobs
  | unsupportedTensor (name dtype : Str)
  | unsupportedDtype
  | wrongLength (name : Str) (length : Nat) (expected : Int)
  | badSpec
deriving DecidableEq

/-- Read from what has arrived: nothing once the connection is closed, and never more than asked for. -/
def recv (count : Nat) : List ByteString → ByteString × List ByteString
  | [] => ([], [])
  | chunk :: chunks =>
    if chunk.length ≤ count then (chunk, chunks) else (chunk.take count, chunk.drop count :: chunks)

abbrev Receiver (α : Type) := StateT (List ByteString) (Except Failure) α

/-- The loop takes at least one byte each time, so it ends within `fuel` rounds when `remaining` is not
more than that. -/
def recvLoop : Nat → Nat → List ByteString → Except Failure (ByteString × List ByteString)
  | _, 0, chunks => .ok ([], chunks)
  | 0, _ + 1, _ => .error .connectionClosed
  | fuel + 1, remaining + 1, chunks =>
    let got := recv (min (remaining + 1) (2 ^ 20)) chunks
    if got.1 = [] then .error .connectionClosed
    else do
      let more ← recvLoop fuel (remaining + 1 - got.1.length) got.2
      pure (got.1 ++ more.1, more.2)

def recvExact (count : Nat) : Receiver ByteString := recvLoop count count

/-- `if c: raise e` -/
def raiseIf (c : Prop) [Decidable c] (e : Failure) : Receiver Unit := if c then throw e else pure ()

section

variable {F : Type} (floats : FloatText F)

def encodeHeader (header : Json F) : ByteString := encodeText (String.ofList (dumps floats header))

def decodeHeader (payload : ByteString) : Except Failure (Json F) :=
  match String.fromUTF8? ⟨(payload.map UInt8.ofFin).toArray⟩ with
  | none => .error .notJson
  | some text =>
    match loads floats text.toList with
    | none => .error .notJson
    | some header => .ok header

def pack (size n : Nat) : Except Failure ByteString :=
  if n < 256 ^ size then .ok (leBytes size n) else .error .pack

def packBlobs : List ByteString → Except Failure ByteString
  | [] => .ok []
  | blob :: blobs => do
    let length ← pack 8 blob.length
    let rest ← packBlobs blobs
    pure (length ++ (blob ++ rest))

/-- What `send_message` writes to the socket. -/
def sendMessage (header : Json F) (blobs : List ByteString) : Except Failure ByteString := do
  let payload := encodeHeader floats header
  let headerLen ← pack 4 payload.length
  let blobCount ← pack 4 blobs.length
  let rest ← packBlobs blobs
  pure (headerLen ++ blobCount ++ (payload ++ rest))

def recvBlobs (maxBlobBytes : Nat) : Nat → Receiver (List ByteString)
  | 0 => pure []
  | n + 1 => do
    let length ← recvExact 8
    raiseIf (maxBlobBytes < ofLE length) (.blobLimit (ofLE length) maxBlobBytes)
    let blob ← recvExact (ofLE length)
    let blobs ← recvBlobs maxBlobBytes n
    pure (blob :: blobs)

def recvMessage (maxBlobBytes : Nat) : Receiver (Json F × List ByteString) := do
  let head ← recvExact 8
  let headerLen := ofLE (head.take 4)
  let blobCount := ofLE (head.drop 4)
  raiseIf (maxHeaderBytes < headerLen ∨ maxBlobs < blobCount) .headerLimits
  let payload ← recvExact headerLen
  let header ← decodeHeader floats payload
  let blobs ← recvBlobs maxBlobBytes blobCount
  pure (header, blobs)

def sendMessages : List (Json F × List ByteString) → Except Failure ByteString
  | [] => .ok []
  | m :: ms => do
    let sent ← sendMessage floats m.1 m.2
    let more ← sendMessages ms
    pure (sent ++ more)

def recvMessages (maxBlobBytes : Nat) : Nat → Receiver (List (Json F × List ByteString))
  | 0 => pure []
  | n + 1 => do
    let m ← recvMessage floats maxBlobBytes
    let ms ← recvMessages maxBlobBytes n
    pure (m :: ms)

variable {α β : Type}

/-- `p` takes exactly `xs` off the socket and returns `a`, however the bytes were cut. -/
def Takes (p : Receiver α) (xs : ByteString) (a : α) : Prop :=
  ∀ chunks ys, Delivers chunks (xs ++ ys) → ∃ rest, p chunks = .ok (a, rest) ∧ Delivers rest ys

theorem takes_pure (a : α) : Takes (pure a) [] a := fun chunks _ h => ⟨chunks, rfl, h⟩

variable {xs ys : ByteString} {chunks : List ByteString} {count : Nat}

theorem Takes.bind {p : Receiver α} {f : α → Receiver β} {a : α} {b : β} (hp : Takes p xs a) (hf : Takes (f a) ys b) :
    Takes (p >>= f) (xs ++ ys) b := by
  intro chunks zs h
  rw [append_assoc] at h
  obtain ⟨middle, hpok, hmiddle⟩ := hp chunks (ys ++ zs) h
  obtain ⟨rest, hfok, hrest⟩ := hf middle zs hmiddle
  refine ⟨rest, ?_, hrest⟩
  simp only [Bind.bind, StateT.bind, Except.bind, hpok, hfok]

theorem takes_raiseIf {c : Prop} [Decidable c] (e : Failure) (hc : ¬ c) : Takes (raiseIf c e) [] () := by
  rw [raiseIf, if_neg hc]
  exact takes_pure ()

theorem exists_left {a b : ByteString} (h : a ++ b = xs ++ ys) (hle : a.length ≤ xs.length) :
    ∃ left, xs = a ++ left ∧ b = left ++ ys := by
  rcases append_eq_append_iff.mp h with ⟨left, hxs, hb⟩ | ⟨left, ha, hys⟩
  · exact ⟨left, hxs, hb⟩
  · have hnil : left = [] := by
      rw [ha, length_append] at hle
      exact eq_nil_of_length_eq_zero (by omega)
    subst hnil
    rw [append_nil] at ha
    exact ⟨[], by rw [ha, append_nil], hys.symm⟩

theorem delivers_recv (hpos : 0 < count) (hle : count ≤ xs.length) (h : Delivers chunks (xs ++ ys)) :
    ∃ got left rest, recv count chunks = (got, rest) ∧ got ≠ [] ∧ xs = got ++ left ∧
      Delivers rest (left ++ ys) := by
  obtain ⟨hne, hflat⟩ := h
  cases chunks with
  | nil =>
    have hlen := congrArg List.length hflat
    rw [flatten_nil, length_nil, length_append] at hlen
    omega
  | cons chunk chunks =>
    obtain ⟨hchunk, hchunks⟩ := forall_mem_cons.mp hne
    rw [flatten_cons] at hflat
    rw [recv]
    split
    · next hfits =>
      obtain ⟨left, hxs, hrest⟩ := exists_left hflat (hfits.trans hle)
      exact ⟨chunk, left, chunks, rfl, hchunk, hxs, hchunks, hrest⟩
    · next hlong =>
      have hlen : (chunk.take count).length = count := by
        rw [length_take]
        omega
      have htake : chunk.take count ≠ [] := length_pos_iff.mp (by omega)
      have hdrop : chunk.drop count ≠ [] := by
        rw [ne_eq, drop_eq_nil_iff]
        omega
      rw [← take_append_drop count chunk, append_assoc] at hflat
      obtain ⟨left, hxs, hrest⟩ := exists_left hflat (by omega)
      refine ⟨chunk.take count, left, _, rfl, htake, hxs, forall_mem_cons.mpr ⟨hdrop, hchunks⟩, ?_⟩
      rw [flatten_cons, hrest]

theorem recvLoop_take {fuel : Nat} (hfuel : xs.length ≤ fuel) (h : Delivers chunks (xs ++ ys)) :
    ∃ rest, recvLoop fuel xs.length chunks = .ok (xs, rest) ∧ Delivers rest ys := by
  induction fuel generalizing chunks xs with
  | zero =>
    have hnil : xs = [] := eq_nil_of_length_eq_zero (by omega)
    subst hnil
    exact ⟨chunks, rfl, h⟩
  | succ fuel ih =>
    cases hxs : xs with
    | nil =>
      rw [hxs] at h
      exact ⟨chunks, rfl, h⟩
    | cons x tail =>
      have hcount : min (tail.length + 1) (2 ^ 20) ≤ xs.length := by
        rw [hxs, length_cons]
        exact Nat.min_le_left _ _
      obtain ⟨got, left, rest, hrecv, hgot, hsplit, hrest⟩ :=
        delivers_recv (by omega : 0 < min (tail.length + 1) (2 ^ 20)) hcount h
      have hpos : 0 < got.length := length_pos_iff.mpr hgot
      have hlen : tail.length + 1 = got.length + left.length := by
        rw [← length_append, ← hsplit, hxs, length_cons]
      have hless : left.length ≤ fuel := by
        rw [hxs, length_cons] at hfuel
        omega
      obtain ⟨final, hloop, hfinal⟩ := ih hless hrest
      refine ⟨final, ?_, hfinal⟩
      have hleft : tail.length + 1 - got.length = left.length := by omega
      rw [length_cons, recvLoop, hrecv]
      simp only [if_neg hgot, hleft, hloop]
      rw [← hxs, hsplit]
      rfl

theorem takes_recvExact (xs : ByteString) : Takes (recvExact xs.length) xs xs :=
  fun _ _ h => recvLoop_take (Nat.le_refl _) h

theorem takes_recvExact_of_length (h : xs.length = count) : Takes (recvExact count) xs xs := h ▸ takes_recvExact xs

end

variable {F : Type} {floats : FloatText F} {maxBlobBytes : Nat}

theorem decodeHeader_encodeHeader {header : Json F} (h : Plain header) :
    decodeHeader floats (encodeHeader floats header) = .ok header := by
  rw [decodeHeader, encodeHeader, fromUTF8?_encodeText]
  simp only [String.toList_ofList, loads_dumps h]

/-- A message that fits the limits of the protocol. -/
structure Fits (floats : FloatText F) (maxBlobBytes : Nat) (m : Json F × List ByteString) : Prop where
  header : Plain m.1
  headerBytes : (encodeHeader floats m.1).length ≤ maxHeaderBytes
  blobCount : m.2.length ≤ maxBlobs
  blobBytes : ∀ blob ∈ m.2, blob.length ≤ maxBlobBytes ∧ blob.length < 256 ^ 8

theorem pack_of_lt {size n : Nat} (h : n < 256 ^ size) : pack size n = .ok (leBytes size n) := if_pos h

theorem recvBlobs_packBlobs {blobs : List ByteString}
    (h : ∀ blob ∈ blobs, blob.length ≤ maxBlobBytes ∧ blob.length < 256 ^ 8) :
    ∃ sent, packBlobs blobs = .ok sent ∧ Takes (recvBlobs maxBlobBytes blobs.length) sent blobs := by
  induction blobs with
  | nil => exact ⟨[], rfl, takes_pure []⟩
  | cons blob blobs ih =>
    obtain ⟨⟨hlimit, hlt⟩, hrest⟩ := forall_mem_cons.mp h
    obtain ⟨sent, hsent, htakes⟩ := ih hrest
    have hvalue : ofLE (leBytes 8 blob.length) = blob.length := ofLE_leBytes_of_lt hlt
    refine ⟨leBytes 8 blob.length ++ (blob ++ sent), ?_, ?_⟩
    · rw [packBlobs, pack_of_lt hlt, hsent]
      rfl
    · rw [length_cons, recvBlobs]
      apply (takes_recvExact_of_length (leBytes_length 8 blob.length)).bind
      rw [hvalue]
      apply (takes_raiseIf _ (not_lt.mpr hlimit)).bind
      apply (takes_recvExact blob).bind
      rw [← append_nil sent]
      exact htakes.bind (takes_pure _)

theorem recvMessage_sendMessage {m : Json F × List ByteString} (h : Fits floats maxBlobBytes m) :
    ∃ sent, sendMessage floats m.1 m.2 = .ok sent ∧ Takes (recvMessage floats maxBlobBytes) sent m := by
  obtain ⟨sent, hsent, htakes⟩ := recvBlobs_packBlobs h.blobBytes
  have hheader : (encodeHeader floats m.1).length < 256 ^ 4 :=
    lt_of_le_of_lt h.headerBytes (by decide)
  have hcount : m.2.length < 256 ^ 4 := lt_of_le_of_lt h.blobCount (by decide)
  let head := leBytes 4 (encodeHeader floats m.1).length ++ leBytes 4 m.2.length
  have hhead : head.length = 8 := by simp [head]
  have htake : ofLE (head.take 4) = (encodeHeader floats m.1).length := by
    rw [take_append_of_le_length (by simp), take_of_length_le (by simp), ofLE_leBytes_of_lt hheader]
  have hdrop : ofLE (head.drop 4) = m.2.length := by
    rw [drop_append_of_le_length (by simp), drop_of_length_le (by simp), nil_append,
      ofLE_leBytes_of_lt hcount]
  have hlimits : ¬ (maxHeaderBytes < (encodeHeader floats m.1).length ∨ maxBlobs < m.2.length) :=
    not_or.mpr ⟨not_lt.mpr h.headerBytes, not_lt.mpr h.blobCount⟩
  refine ⟨head ++ (encodeHeader floats m.1 ++ sent), ?_, ?_⟩
  · rw [sendMessage, pack_of_lt hheader, pack_of_lt hcount, hsent]
    rfl
  · rw [recvMessage]
    apply (takes_recvExact_of_length hhead).bind
    rw [htake, hdrop]
    apply (takes_raiseIf _ hlimits).bind
    apply (takes_recvExact _).bind
    rw [decodeHeader_encodeHeader h.header]
    apply (takes_pure m.1).bind
    rw [← append_nil sent]
    exact htakes.bind (takes_pure _)

theorem recvMessages_sendMessages {ms : List (Json F × List ByteString)}
    (h : ∀ m ∈ ms, Fits floats maxBlobBytes m) :
    ∃ sent, sendMessages floats ms = .ok sent ∧ Takes (recvMessages floats maxBlobBytes ms.length) sent ms := by
  induction ms with
  | nil => exact ⟨[], rfl, takes_pure []⟩
  | cons m ms ih =>
    obtain ⟨hm, hms⟩ := forall_mem_cons.mp h
    obtain ⟨first, hfirst, htakes⟩ := recvMessage_sendMessage hm
    obtain ⟨more, hmore, htakesMore⟩ := ih hms
    refine ⟨first ++ more, ?_, ?_⟩
    · rw [sendMessages, hfirst, hmore]
      rfl
    · rw [length_cons, recvMessages]
      apply htakes.bind
      rw [← append_nil more]
      exact htakesMore.bind (takes_pure _)

end Onnxsim.Rpc.Protocol
