import Onnxsim.Wire.Client

namespace Onnxsim.Wire.Interop

open List Lib.Bytes Lib.Readers Lib.Results Messages Encoders
open Decoders Fields Tensors RoundTrip Sockets
open Client

variable {t : TensorLike}

theorem numpyDtype_eq_some {d w : Nat} {k : Kind} (h : numpyDtype d = some (k, w)) : dtypeBytes d = w ∧ w ≠ 0 ∧ d ≤ 16 := by
  unfold numpyDtype at h
  split at h <;> first
    | cases h; decide
    | cases h

theorem exists_numpyDtype {d : Nat} (h : dtypeBytes d ≠ 0) : ∃ k, numpyDtype d = some (k, dtypeBytes d) := by
  unfold dtypeBytes at h ⊢
  split at h <;> first
    | exact ⟨_, rfl⟩
    | exact absurd rfl h

theorem asTensor_eq_ok {d : Nat} {a : NpArray} (h : asTensor t = .ok (d, a)) :
    a = t.array ∧ ∃ k, numpyDtype d = some (k, a.itemsize) := by
  rw [asTensor] at h
  obtain ⟨dtype, -, h⟩ := bind_eq_ok h
  split at h
  · cases h
  · split at h
    · cases h
    · next k want hd =>
      split at h
      · cases h
      · next hsize =>
        cases h
        rw [not_not] at hsize
        exact ⟨rfl, k, by rw [hd, hsize]⟩

variable {v : Int} {k : Nat} {b : ByteString}

theorem pack_eq_ok (h : pack k v = .ok b) : 0 ≤ v ∧ v.toNat < 256 ^ k ∧ b = beBytes k v.toNat := by
  rw [pack] at h
  split at h
  · next hv =>
    cases h
    exact ⟨hv.1, hv.2, rfl⟩
  · cases h

def cppTensor (d : Nat) (a : NpArray) : Tensor :=
  if d = 1 then ⟨a.shape.map Int.ofNat, wordsOf a.size a.bytes, 1, []⟩
  else ⟨a.shape.map Int.ofNat, [], UInt8.ofNat d, a.bytes⟩

variable {d : Nat} {a : NpArray}

theorem cppTensor_shape (d : Nat) (a : NpArray) : (cppTensor d a).shape = a.shape.map Int.ofNat := by
  rw [cppTensor]
  split <;> rfl

theorem toNat_dtype (hd : d ≤ 16) : (cppTensor d a).dtype.toNat = d := by
  rw [cppTensor]
  split
  · next h1 => exact h1.symm
  · exact UInt8.toNat_ofNat_of_lt' (hd.trans_lt (by decide))

theorem dtype_cppTensor (hd : d ≤ 16) : (cppTensor d a).dtype = 1 ↔ d = 1 := by
  rw [← dtype_eq_one, toNat_dtype hd]

theorem elementsOf_ofNat (shape : List Nat) : elementsOf (shape.map Int.ofNat) = shape.prod := by
  rw [elementsOf, List.map_map]
  have hid : (Int.toNat ∘ Int.ofNat) = id := rfl
  rw [hid, List.map_id]

theorem payload_cppTensor {k : Kind} (hd : numpyDtype d = some (k, a.itemsize)) : (cppTensor d a).payload = a.bytes := by
  obtain ⟨hbytes, -, hle⟩ := numpyDtype_eq_some hd
  rw [Tensor.payload]
  by_cases h1 : d = 1
  · subst h1
    have hlen : a.bytes.length = a.size * 4 := by
      rw [a.length_bytes, ← hbytes]
      rfl
    rw [if_pos ((dtype_cppTensor hle).mpr rfl), cppTensor, if_pos rfl, wordBytes_wordsOf hlen]
  · rw [if_neg (mt (dtype_cppTensor hle).mp h1), cppTensor, if_neg h1]

theorem sized_cppTensor {k : Kind} (hd : numpyDtype d = some (k, a.itemsize)) (hrank : a.shape.length ≤ kMaxRank)
    (hsize : a.nbytes ≤ kMaxTensorBytes) (hdims : ∀ n ∈ a.shape, n < 256 ^ 8) : Sized (cppTensor d a) := by
  obtain ⟨hbytes, hne, hle⟩ := numpyDtype_eq_some hd
  have hcode := toNat_dtype (a := a) hle
  refine ⟨?_, ?_, ?_, ?_, ?_, ?_⟩
  · rwa [cppTensor_shape, length_map]
  · rwa [hcode, hbytes]
  · intro n hn
    rw [cppTensor_shape] at hn
    obtain ⟨m, hm, rfl⟩ := List.mem_map.mp hn
    exact ⟨Int.natCast_nonneg m, hdims m hm⟩
  · rwa [hcode, hbytes, cppTensor_shape, elementsOf_ofNat]
  · intro h1
    have h1 := (dtype_cppTensor hle).mp h1
    rw [cppTensor, if_pos h1]
    exact ⟨rfl, by rw [wordsOf_length, elementsOf_ofNat]; rfl⟩
  · intro h1
    have h1 := mt (dtype_cppTensor hle).mpr h1
    rw [hcode, hbytes, cppTensor, if_neg h1]
    exact ⟨rfl, by rw [elementsOf_ofNat]; exact a.length_bytes⟩

theorem encodeTensor_eq_ok (h : Client.encodeTensor t = .ok b) :
    ∃ d k, asTensor t = .ok (d, t.array) ∧ numpyDtype d = some (k, t.array.itemsize) ∧
      Sized (cppTensor d t.array) ∧ b = tensorBytes (cppTensor d t.array) := by
  rw [Client.encodeTensor] at h
  obtain ⟨⟨d, a⟩, ha, h⟩ := bind_eq_ok h
  obtain ⟨rfl, k, hd⟩ := asTensor_eq_ok ha
  dsimp only at h
  split at h
  · cases h
  · next hrank =>
    split at h
    · cases h
    · next hsize =>
      obtain ⟨db, hdb, h⟩ := bind_eq_ok h
      obtain ⟨nb, hnb, h⟩ := bind_eq_ok h
      obtain ⟨dims, hdims, h⟩ := bind_eq_ok h
      obtain ⟨sb, hsb, h⟩ := bind_eq_ok h
      split at h
      · cases h
      · cases h
        obtain ⟨-, -, rfl⟩ := pack_eq_ok hdb
        obtain ⟨-, -, rfl⟩ := pack_eq_ok hnb
        obtain ⟨-, -, rfl⟩ := pack_eq_ok hsb
        have hall : ∀ n ∈ t.array.shape, n < 256 ^ 8 := by
          intro n hn
          obtain ⟨nb, hnb⟩ := ok_of_mapM hdims hn
          exact (pack_eq_ok hnb).2.1
        have hparts : dims = t.array.shape.map fun n => beBytes 8 n :=
          eq_map_of_mapM (fun n nb hnb => (pack_eq_ok hnb).2.2) hdims
        have hsized := sized_cppTensor hd (not_lt.mp hrank) (not_lt.mp hsize) hall
        refine ⟨d, k, ha, hd, hsized, ?_⟩
        obtain ⟨-, -, hle⟩ := numpyDtype_eq_some hd
        rw [tensorBytes, hsized.count, toNat_dtype hle, payload_cppTensor hd, cppTensor_shape, elementsOf_ofNat,
          length_map, flatMap_map, hparts, flatMap_def]
        rfl

variable {r : PyRequest}

def dtypeOf (t : TensorLike) : Nat :=
  match asTensor t with
  | .ok r => r.1
  | .error _ => 0

def cppInput (t : TensorLike) : Tensor := cppTensor (dtypeOf t) t.array

/-- The request that a client's call stands for on the other side. -/
def cppRequest (r : PyRequest) : Request :=
  ⟨UInt64.ofNat r.requestId.toNat, encodeText r.op, r.model, encodeText r.artifactId, r.artifact,
    r.inputs.map cppInput, ProfilingLevel.ofCode r.profiling.toNat⟩

theorem dtypeOf_eq {d : Nat} {a : NpArray} (h : asTensor t = .ok (d, a)) : dtypeOf t = d := by
  rw [dtypeOf, h]

variable {ts : List TensorLike}

theorem encodeTensors_eq_ok (h : Client.encodeTensors ts = .ok b) :
    ts.length ≤ kMaxTensors ∧ b = tensorsBytes (ts.map cppInput) ∧ (∀ t ∈ ts, Sized (cppInput t)) ∧
      ∀ t ∈ ts, ∃ k, asTensor t = .ok (dtypeOf t, t.array) ∧ numpyDtype (dtypeOf t) = some (k, t.array.itemsize) := by
  rw [Client.encodeTensors] at h
  split at h
  · cases h
  · next hlen =>
    obtain ⟨nb, hnb, h⟩ := bind_eq_ok h
    obtain ⟨parts, hparts, h⟩ := bind_eq_ok h
    cases h
    obtain ⟨-, -, rfl⟩ := pack_eq_ok hnb
    have hall : ∀ t ∈ ts, ∃ pb, Client.encodeTensor t = .ok pb := fun t ht => ok_of_mapM hparts ht
    have hmap : parts = ts.map fun t => tensorBytes (cppInput t) := by
      refine eq_map_of_mapM (fun t pb hpb => ?_) hparts
      obtain ⟨d, k, ha, -, -, rfl⟩ := encodeTensor_eq_ok hpb
      rw [cppInput, dtypeOf_eq ha]
    refine ⟨not_lt.mp hlen, ?_, ?_, ?_⟩
    · rw [hmap, tensorsBytes, length_map, flatMap_map, flatMap_def]
      rfl
    · intro t ht
      obtain ⟨pb, hpb⟩ := hall t ht
      obtain ⟨d, k, ha, -, hsized, -⟩ := encodeTensor_eq_ok hpb
      rwa [cppInput, dtypeOf_eq ha]
    · intro t ht
      obtain ⟨pb, hpb⟩ := hall t ht
      obtain ⟨d, k, ha, hd, -, -⟩ := encodeTensor_eq_ok hpb
      rw [dtypeOf_eq ha]
      exact ⟨k, ha, hd⟩

theorem encodeString_eq_ok {s : ByteString} (h : encodeString s = .ok b) : b = putString s := by
  obtain ⟨nb, hnb, h⟩ := bind_eq_ok h
  cases h
  obtain ⟨-, -, rfl⟩ := pack_eq_ok hnb
  rfl

theorem encodeRequest_eq_ok (h : encodeRequest r = .ok b) :
    sendMessage kRun (requestBytes (cppRequest r)) = .ok b ∧ RequestSized (cppRequest r) ∧
      (0 ≤ r.requestId ∧ r.requestId.toNat < 256 ^ 8) ∧ r.profiling ∈ ([0, 1, 2] : List Int) ∧
      ∀ t ∈ r.inputs, ∃ k, asTensor t = .ok (dtypeOf t, t.array) ∧
        numpyDtype (dtypeOf t) = some (k, t.array.itemsize) := by
  obtain ⟨body, hbody, hmessage⟩ := bind_eq_ok h
  rw [Client.encodeRequestPayload] at hbody
  split at hbody
  · cases hbody
  · next hop =>
    split at hbody
    · cases hbody
    · next hartifactId =>
      split at hbody
      · cases hbody
      · next hprofiling =>
        rw [not_not] at hprofiling
        rw [not_or, not_lt] at hop
        obtain ⟨id, hid, hbody⟩ := bind_eq_ok hbody
        obtain ⟨op, hopb, hbody⟩ := bind_eq_ok hbody
        obtain ⟨artifactId, hartb, hbody⟩ := bind_eq_ok hbody
        obtain ⟨modelLen, hmodel, hbody⟩ := bind_eq_ok hbody
        obtain ⟨artifactLen, hartifact, hbody⟩ := bind_eq_ok hbody
        obtain ⟨profiling, hprof, hbody⟩ := bind_eq_ok hbody
        obtain ⟨tensors, htensors, hbody⟩ := bind_eq_ok hbody
        cases hbody
        obtain ⟨hid₀, hid₁, rfl⟩ := pack_eq_ok hid
        cases encodeString_eq_ok hopb
        cases encodeString_eq_ok hartb
        obtain ⟨-, -, rfl⟩ := pack_eq_ok hmodel
        obtain ⟨-, -, rfl⟩ := pack_eq_ok hartifact
        obtain ⟨-, -, rfl⟩ := pack_eq_ok hprof
        obtain ⟨hlen, rfl, hsized, htypes⟩ := encodeTensors_eq_ok htensors
        have hcode : r.profiling.toNat ≤ 2 := by
          rcases mem_cons.mp hprofiling with h | h
          · rw [h]
            decide
          · rcases mem_cons.mp h with h | h
            · rw [h]
              decide
            · rw [mem_singleton.mp h]
              decide
        have hsend : sendMessage kRun (requestBytes (cppRequest r)) = .ok b := by
          rw [requestBytes, cppRequest]
          rw [UInt64.toNat_ofNat_of_lt' hid₁, ProfilingLevel.code_ofCode hcode]
          exact hmessage
        have hsize := (sendMessage_eq_ok.mp hsend).1
        rw [requestBytes, putBlob, putBlob] at hsize
        simp only [length_append] at hsize
        refine ⟨hsend, ⟨hop, not_lt.mp hartifactId, by omega, ?_, ?_, ?_⟩, ⟨hid₀, hid₁⟩, hprofiling, htypes⟩
        · rw [kMaxArtifactBytes]
          omega
        · rw [cppRequest, length_map]
          exact hlen
        · intro t ht
          obtain ⟨t', ht', rfl⟩ := List.mem_map.mp ht
          exact hsized t' ht'

/-- The other side has the tensor that was sent. -/
structure SameTensor (t : TensorLike) (c : Tensor) : Prop where
  dtype : asTensor t = .ok (c.dtype.toNat, t.array)
  shape : c.shape = t.array.shape.map Int.ofNat
  payload : c.payload = t.array.bytes

/-- The other side has the request that was sent. -/
structure SameRequest (r : PyRequest) (c : Request) : Prop where
  requestId : (c.requestId.toNat : Int) = r.requestId
  op : c.op = encodeText r.op
  artifactId : c.artifactId = encodeText r.artifactId
  model : c.model = r.model
  artifact : c.artifact = r.artifact
  profiling : (c.profiling.code : Int) = r.profiling
  inputs : List.Forall₂ SameTensor r.inputs c.inputs

theorem payload_merge (dest t : Tensor) : (merge dest t).payload = t.payload := by
  rw [Tensors.merge]
  split
  · next h1 => rw [Tensor.payload, Tensor.payload, if_pos h1, if_pos h1]
  · next h1 => rw [Tensor.payload, Tensor.payload, if_neg h1, if_neg h1]

theorem dtype_merge (dest t : Tensor) : (merge dest t).dtype = t.dtype := by
  rw [Tensors.merge]
  split <;> rfl

theorem shape_merge (dest t : Tensor) : (merge dest t).shape = t.shape := by
  rw [Tensors.merge]
  split <;> rfl

theorem forall₂_merged
    (h : ∀ t ∈ ts, ∃ k, asTensor t = .ok (dtypeOf t, t.array) ∧ numpyDtype (dtypeOf t) = some (k, t.array.itemsize))
    {dest : List Tensor} (hlen : dest.length = ts.length) :
    List.Forall₂ SameTensor ts (List.zipWith merge dest (ts.map cppInput)) := by
  induction ts generalizing dest with
  | nil =>
    rw [eq_nil_of_length_eq_zero hlen]
    exact .nil
  | cons t ts ih =>
    obtain ⟨⟨k, ha, hd⟩, hts⟩ := forall_mem_cons.mp h
    cases dest with
    | nil => cases hlen
    | cons d dest =>
      obtain ⟨-, -, hle⟩ := numpyDtype_eq_some hd
      refine .cons ⟨?_, ?_, ?_⟩ (ih hts (Nat.succ.inj hlen))
      · rw [dtype_merge, cppInput, toNat_dtype hle, ha]
      · rw [shape_merge, cppInput, cppTensor_shape]
      · rw [payload_merge, cppInput, payload_cppTensor hd]

/-- The other side accepts a message of the client exactly when every shape passes its test, and it then has
the request that was sent. -/
theorem receiveRequest_of_client {chunks : List ByteString} (h : encodeRequest r = .ok b) (hdel : Delivers chunks b)
    (dest : Request) : (∃ c, receiveRequest chunks dest = .ok c ∧ SameRequest r c) ↔
      ∀ t ∈ r.inputs, (countElements (t.array.shape.map Int.ofNat) 1).isSome = true := by
  obtain ⟨hsend, hsized, hid, hprofiling, htypes⟩ := encodeRequest_eq_ok h
  have hfit : ShapesFit (cppRequest r).inputs ↔
      ∀ t ∈ r.inputs, (countElements (t.array.shape.map Int.ofNat) 1).isSome = true := by
    rw [ShapesFit, cppRequest]
    simp only [List.forall_mem_map, cppInput, cppTensor_shape]
  rw [← hfit]
  obtain ⟨hok, herr⟩ := decodeRequestBytes_sized hsized dest
  rw [receiveRequest_of_sent hsend hdel]
  constructor
  · rintro ⟨c, hc, -⟩
    by_contra hbad
    obtain ⟨e, he⟩ := herr hbad
    rw [he] at hc
    cases hc
  · intro hgood
    refine ⟨_, hok hgood, ⟨?_, rfl, rfl, rfl, rfl, ?_, ?_⟩⟩
    · change ((UInt64.ofNat r.requestId.toNat).toNat : Int) = r.requestId
      rw [UInt64.toNat_ofNat_of_lt' hid.2]
      omega
    · change ((ProfilingLevel.ofCode r.profiling.toNat).code : Int) = r.profiling
      rcases mem_cons.mp hprofiling with h | h
      · rw [h]
        rfl
      · rcases mem_cons.mp h with h | h
        · rw [h]
          rfl
        · rw [mem_singleton.mp h]
          rfl
    · apply forall₂_merged htypes
      rw [length_resize]
      exact length_map ..

end Onnxsim.Wire.Interop

namespace Onnxsim.Wire.Answers

open List Lib.Bytes Lib.Readers Lib.Results Messages Encoders
open Decoders Fields Tensors RoundTrip Sockets
open Client Interop

variable {b : ByteString}

def Utf8 (b : ByteString) : Prop := ∃ s, encodeText s = b

variable (replace : ByteString → String)

theorem readsIf_readString {limit : Nat} (hlimit : limit < 256 ^ 4) (h : b.length ≤ limit) (hutf : Utf8 b) :
    ReadsIf (readString replace limit) (putString b) (decodeText replace b) True ∧
      encodeText (decodeText replace b) = b := by
  obtain ⟨s, rfl⟩ := hutf
  refine ⟨?_, by rw [decodeText_encodeText]⟩
  rw [← append_nil (putString (encodeText s)), putString, append_assoc]
  refine (readsIf_takeNumber (h.trans_lt hlimit)).seq ?_
  refine (readsIf_ensure.iff (iff_true_intro h)).seq_nil ?_
  refine (readsIf_takeBytes rfl).seq ?_
  exact readsIf_pure _

theorem readsIf_readBlob (h : b.length < 256 ^ 8) : ReadsIf readBlob (putBlob b) b True := by
  rw [← append_nil (putBlob b), putBlob, append_assoc]
  refine (readsIf_takeNumber h).seq ?_
  rw [append_nil]
  exact readsIf_takeBytes rfl

variable (holds : Nat → List Nat → Bool)

def pyTensor (t : Tensor) : PyTensor := ⟨t.dtype.toNat, t.shape.map Int.toNat, t.payload⟩

def Holds (t : Tensor) : Prop := holds (dtypeBytes t.dtype.toNat) (t.shape.map Int.toNat) = true

theorem readsIf_readTensor {t : Tensor} (h : Sized t) :
    ReadsIf (readTensor holds) (tensorBytes t) (pyTensor t) (Holds holds t) := by
  obtain ⟨k, hk⟩ := exists_numpyDtype h.dtype
  have hrank : t.shape.length < 256 ^ 4 := h.rank.trans_lt (by decide)
  have hfit : elementsOf t.shape = (t.shape.map Int.toNat).prod ∧
      elementsOf t.shape * dtypeBytes t.dtype.toNat ≤ kMaxTensorBytes := ⟨rfl, h.size⟩
  have hcount : elementsOf t.shape < 256 ^ 8 :=
    (Nat.le_mul_of_pos_right _ (Nat.pos_of_ne_zero h.dtype)).trans_lt (h.size.trans_lt (by decide))
  have hdims : ReadsIf (readMany (takeNumber 8 truncated) t.shape.length) (t.shape.flatMap fun d => putU64 d.toNat)
      (t.shape.map Int.toNat) True :=
    (readsIf_readMany t.shape fun d hd => readsIf_takeNumber (h.dims d hd).2).iff (by simp)
  have hpayload := h.payload_length
  have hbytes : tensorBytes t = putU32 t.dtype.toNat ++ (putU32 t.shape.length ++
      ((t.shape.flatMap fun d => putU64 d.toNat) ++ (putU64 (elementsOf t.shape) ++ (t.payload ++ ([] ++ []))))) := by
    rw [tensorBytes, h.count, append_nil, append_nil]
  rw [hbytes]
  refine (readsIf_takeNumber (dtype_lt t)).seq ?_
  refine (readsIf_takeNumber hrank).seq ?_
  rw [hk]
  refine (readsIf_ensure.iff (iff_true_intro h.rank)).seq_nil ?_
  refine hdims.seq ?_
  refine (readsIf_takeNumber hcount).seq ?_
  refine (readsIf_ensure.iff (iff_true_intro hfit)).seq_nil ?_
  refine (readsIf_takeBytes hpayload).seq ?_
  rw [Holds]
  refine (ReadsIf.bind readsIf_ensure fun _ => ?_).iff (and_true _).to_iff
  exact readsIf_pure _

theorem readsIf_readTensors {ts : List Tensor} (hlen : ts.length ≤ kMaxTensors) (h : ∀ t ∈ ts, Sized t) :
    ReadsIf (readTensors holds) (tensorsBytes ts) (ts.map pyTensor) (∀ t ∈ ts, Holds holds t) := by
  refine (readsIf_takeNumber (hlen.trans_lt (by decide))).seq ?_
  refine (readsIf_ensure.iff (iff_true_intro hlen)).seq_nil ?_
  exact readsIf_readMany ts fun t ht => readsIf_readTensor holds (h t ht)

structure Utf8Event (event : ProfileEvent) : Prop where
  name : Utf8 event.name
  category : Utf8 event.category
  detail : Utf8 event.detail

def pyEvent (event : ProfileEvent) : PyEvent :=
  ⟨decodeText replace event.name, decodeText replace event.category, event.startUs.toNat, event.durationUs.toNat,
    decodeText replace event.detail⟩

theorem readsIf_readEvent {event : ProfileEvent} (h : checkedEvent event = .ok ()) (hutf : Utf8Event event) :
    ReadsIf (readEvent replace) (eventBytes event) (pyEvent replace event) True := by
  obtain ⟨-, hname, hcategory, hdetail⟩ := checkedEvent_eq_ok.mp h
  rw [eventBytes, ← append_nil (putString event.detail)]
  refine (readsIf_readString replace (by decide) hname hutf.name).1.seq ?_
  refine (readsIf_readString replace (by decide) hcategory hutf.category).1.seq ?_
  refine (readsIf_takeNumber event.startUs.toNat_lt).seq ?_
  refine (readsIf_takeNumber event.durationUs.toNat_lt).seq ?_
  refine (readsIf_readString replace (by decide) hdetail hutf.detail).1.seq ?_
  exact readsIf_pure _

/-- The texts that an answer carries are UTF-8. -/
structure Utf8Response (r : Response) : Prop where
  error : r.ok = false → Utf8 r.error
  events : r.ok = true → ∀ event ∈ r.profile, Utf8Event event
  artifactId : r.ok = true → Utf8 r.artifactId
  manifest : r.ok = true → Utf8 r.manifest

structure SameEvent (event : ProfileEvent) (p : PyEvent) : Prop where
  name : encodeText p.name = event.name
  category : encodeText p.category = event.category
  startUs : p.startUs = event.startUs.toNat
  durationUs : p.durationUs = event.durationUs.toNat
  detail : encodeText p.detail = event.detail

/-- The client has the answer that was sent. -/
structure SameAnswer (r : Response) (p : PyResponse) : Prop where
  requestId : p.requestId = r.requestId.toNat
  ok : p.ok = r.ok
  error : r.ok = false → encodeText p.error = r.error
  outputs : r.ok = true → p.outputs = r.outputs.map pyTensor
  profile : r.ok = true → List.Forall₂ SameEvent r.profile p.profile
  artifactId : r.ok = true → encodeText p.artifactId = r.artifactId
  manifest : r.ok = true → encodeText p.manifest = r.manifest
  artifact : r.ok = true → p.artifact = r.artifact

def pyResponse (r : Response) : PyResponse :=
  if r.ok = true then ⟨r.requestId.toNat, true, "", r.outputs.map pyTensor, r.profile.map (pyEvent replace),
    decodeText replace r.artifactId, decodeText replace r.manifest, r.artifact⟩
  else ⟨r.requestId.toNat, false, decodeText replace r.error, [], [], "", "", []⟩

theorem encode_decode (h : Utf8 b) : encodeText (decodeText replace b) = b := by
  obtain ⟨s, rfl⟩ := h
  rw [decodeText_encodeText]

variable {r : Response}

theorem sameAnswer_pyResponse (h : Utf8Response r) : SameAnswer r (pyResponse replace r) := by
  rw [pyResponse]
  cases hok : r.ok with
  | false =>
    rw [if_neg Bool.false_ne_true]
    exact ⟨rfl, hok.symm, fun _ => encode_decode replace (h.error hok), by simp [hok], by simp [hok], by simp [hok],
      by simp [hok], by simp [hok]⟩
  | true =>
    rw [if_pos rfl]
    refine ⟨rfl, hok.symm, by simp [hok], fun _ => rfl, fun _ => ?_,
      fun _ => encode_decode replace (h.artifactId hok), fun _ => encode_decode replace (h.manifest hok), fun _ => rfl⟩
    rw [forall₂_map_right_iff, forall₂_same]
    intro event hevent
    have hutf := h.events hok event hevent
    exact ⟨encode_decode replace hutf.name, encode_decode replace hutf.category, rfl, rfl,
      encode_decode replace hutf.detail⟩

theorem readsIf_readErrorResponse (hr : r.ok = false) (h : r.error.length ≤ kMaxProfileDetailBytes * 4)
    (hutf : Utf8Response r) : ReadsIf (readErrorResponse replace) (responseBytes r) (pyResponse replace r) True := by
  rw [responseBytes, pyResponse, hr, if_neg Bool.false_ne_true, if_neg Bool.false_ne_true,
    ← append_nil (putString r.error)]
  refine (readsIf_takeNumber r.requestId.toNat_lt).seq ?_
  refine (readsIf_readString replace (by decide) h (hutf.error hr)).1.seq ?_
  exact readsIf_pure _

theorem readsIf_readOkResponse (hr : r.ok = true) (h : ResponseOk r) (hutf : Utf8Response r) :
    ReadsIf (readOkResponse replace holds) (responseBytes r) (pyResponse replace r)
      (∀ t ∈ r.outputs, Holds holds t) := by
  have hsized : ∀ t ∈ r.outputs, Sized t := fun t ht => (checkedTensor_eq_ok.mp (h.tensors t ht)).1
  have hevents : ReadsIf (readMany (readEvent replace) r.profile.length) (r.profile.flatMap eventBytes)
      (r.profile.map (pyEvent replace)) True :=
    (readsIf_readMany r.profile fun event he =>
      readsIf_readEvent replace (h.events event he) (hutf.events hr event he)).iff (by simp)
  have hbytes : responseBytes r = putU64 r.requestId.toNat ++ (tensorsBytes r.outputs ++ (putU32 r.profile.length ++
      (r.profile.flatMap eventBytes ++ (putString r.artifactId ++ (putString r.manifest ++
        (putBlob r.artifact ++ [])))))) := by
    rw [responseBytes, if_pos hr, profileBytes, append_assoc, append_nil]
  have hartifact : r.artifact.length < 256 ^ 8 := h.artifact.trans_lt (by decide)
  rw [hbytes, pyResponse, if_pos hr]
  refine (readsIf_takeNumber r.requestId.toNat_lt).seq ?_
  refine ((readsIf_readTensors holds h.outputs hsized).bind fun _ => ?_).iff (and_true _).to_iff
  refine (readsIf_takeNumber (h.profile.trans_lt (by decide))).seq ?_
  refine (readsIf_ensure.iff (iff_true_intro h.profile)).seq_nil ?_
  refine hevents.seq ?_
  refine (readsIf_readString replace (by decide) h.artifactId (hutf.artifactId hr)).1.seq ?_
  refine (readsIf_readString replace (by decide) h.manifest (hutf.manifest hr)).1.seq ?_
  refine (readsIf_readBlob hartifact).seq ?_
  exact readsIf_pure _

variable {kind : Nat} {payload message : ByteString} {chunks : List ByteString} {kinds : List Nat}

theorem recvMessage_of_sent (hkind : kind ∈ kinds) (hlt : kind < 256 ^ 2)
    (hsend : sendMessage kind payload = .ok message) (hdel : Delivers chunks message) :
    recvMessage chunks kinds = .ok (kind, payload) := by
  obtain ⟨hsize, rfl⟩ := sendMessage_eq_ok.mp hsend
  have hassoc : beBytes 4 kMagic ++ (beBytes 2 kVersion ++ (beBytes 2 kind ++ (beBytes 8 payload.length ++ payload))) =
      (beBytes 4 kMagic ++ (beBytes 2 kVersion ++ (beBytes 2 kind ++ beBytes 8 payload.length))) ++ payload := by
    simp only [append_assoc]
  rw [hassoc] at hdel
  obtain ⟨c₁, h₁, hdel⟩ := readAll_append hdel
  rw [← append_nil payload] at hdel
  obtain ⟨c₂, h₂, -⟩ := readAll_append hdel
  have hlen : (beBytes 4 kMagic ++ (beBytes 2 kVersion ++ (beBytes 2 kind ++ beBytes 8 payload.length))).length = 16 := by
    simp only [length_append, beBytes_length]
  rw [hlen] at h₁
  have hmagic : ofBE (beBytes 4 kMagic) = kMagic := ofBE_beBytes_of_lt (by decide)
  have hversion : ofBE (beBytes 2 kVersion) = kVersion := ofBE_beBytes_of_lt (by decide)
  have hcode : ofBE (beBytes 2 kind) = kind := ofBE_beBytes_of_lt hlt
  have hcount : ofBE (beBytes 8 payload.length) = payload.length := ofBE_beBytes_of_lt (hsize.trans_lt (by decide))
  have hdrop6 : (beBytes 4 kMagic ++ (beBytes 2 kVersion ++ (beBytes 2 kind ++ beBytes 8 payload.length))).drop 6 =
      beBytes 2 kind ++ beBytes 8 payload.length := by
    rw [← append_assoc]
    exact drop_left' (by simp only [length_append, beBytes_length])
  have hdrop8 : (beBytes 4 kMagic ++ (beBytes 2 kVersion ++ (beBytes 2 kind ++ beBytes 8 payload.length))).drop 8 =
      beBytes 8 payload.length := by
    rw [← append_assoc, ← append_assoc]
    exact drop_left' (by simp only [length_append, beBytes_length])
  rw [recvMessage, h₁]
  dsimp only
  rw [hdrop6, hdrop8, take_left' (beBytes_length _ _), drop_left' (beBytes_length _ _),
    take_left' (beBytes_length _ _), take_left' (beBytes_length _ _), hmagic, hversion, hcode, hcount, h₂,
    if_neg]
  rw [not_or, not_or, not_or, not_not, not_not, not_not, not_lt]
  exact ⟨rfl, rfl, hkind, hsize⟩

theorem receiveResponse_of_sent' {ok : Bool} (hsend : sendMessage (if ok = false then kError else kOk) payload = .ok message)
    (hdel : Delivers chunks message) :
    Client.receiveResponse replace holds chunks = decodeResponse replace holds payload ok := by
  cases ok with
  | false =>
    rw [Client.receiveResponse, ok_bind (recvMessage_of_sent (show kError ∈ [kOk, kError] by simp) (by decide) hsend hdel)]
    rfl
  | true =>
    rw [Client.receiveResponse, ok_bind (recvMessage_of_sent (show kOk ∈ [kOk, kError] by simp) (by decide) hsend hdel)]
    rfl

end Onnxsim.Wire.Answers
