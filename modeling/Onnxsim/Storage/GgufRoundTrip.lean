import Onnxsim.Storage.GgufLayout

namespace Onnxsim.Storage.GgufLimits

open List Lib.Bytes Lib.OrderedMaps Lib.Readers Pool
open GgufTypes Gguf GgufReads
open GgufLayout

variable (file : ByteString) (path : String)

theorem yields_failRead {α : Type} (what : String) (Q : α → Prop) : Yields (failRead path what) Q :=
  yields_error fun _ => ⟨_, rfl⟩

theorem yields_readBytes (what : String) (n : Nat) :
    Yields (readBytes path what n) fun s => s.length = n := by
  intro c s c' h
  rw [readBytes] at h
  split at h
  · cases h
  · next hn =>
    cases h
    exact length_take_of_le (Nat.not_lt.mp hn)

theorem yields_readGGUFString : Yields (readGGUFString path) fun s => s.length ≤ kMaxStringLen := by
  refine yields_bind fun len => ?_
  split
  · exact yields_failRead path _ _
  · next hlen =>
    intro c s c' h
    rw [yields_readBytes path _ _ c s c' h]
    exact Nat.not_lt.mp hlen

theorem yields_readMany {α : Type} {p : FileReader α} {Q : α → Prop} (hp : Yields p Q) (n : Nat) :
    Yields (readMany p n) fun as => as.length = n ∧ ∀ a ∈ as, Q a := by
  induction n with
  | zero => exact yields_pure ⟨rfl, by simp⟩
  | succ n ih =>
    refine hp.bind fun a ha => ih.bind fun as has => yields_pure ⟨by simp [has.1], fun b hb => ?_⟩
    rcases mem_cons.mp hb with rfl | hb
    · exact ha
    · exact has.2 b hb

structure InfoLimits (info : TensorInfo) : Prop where
  name : info.name.length ≤ kMaxStringLen
  rank : info.ne.length ≤ kMaxDims

theorem yields_readTensorInfo : Yields (readTensorInfo path) InfoLimits := by
  refine (yields_readGGUFString path).bind fun name hname => yields_bind fun nDims => ?_
  split
  · exact yields_failRead path _ _
  · next hdims =>
    have hne := yields_readMany (p := readLE path 8) (Q := fun _ => True) (fun _ _ _ _ => trivial) nDims
    refine hne.bind fun ne hlen => yields_bind fun ggmlType => yields_bind fun offset => ?_
    exact yields_pure ⟨hname, hlen.1 ▸ Nat.not_lt.mp hdims⟩

theorem yields_readCounts : Yields (readCounts path) fun counts =>
    counts.1 ≤ kMaxTensorCount ∧ counts.2 ≤ kMaxMetadataCount := by
  refine yields_bind fun magic => ?_
  split
  · exact yields_failRead path _ _
  refine yields_bind fun version => ?_
  split
  · exact yields_failRead path _ _
  refine yields_bind fun m => yields_bind fun n => ?_
  split
  · exact yields_failRead path _ _
  split
  · exact yields_failRead path _ _
  · next hm hn => exact yields_pure ⟨Nat.not_lt.mp hm, Nat.not_lt.mp hn⟩

theorem yields_readHeader : Yields (readHeader file path) fun r =>
    r.1.length ≤ kMaxTensorCount ∧ ∀ info ∈ r.1, InfoLimits info := by
  refine (yields_readCounts path).bind fun counts hc => yields_bind fun alignment => ?_
  refine (yields_readMany (yields_readTensorInfo path) counts.1).bind fun infos hi => ?_
  intro c r c' h
  cases h
  exact ⟨hi.1 ▸ hc.1, hi.2⟩

/-- An entry that the walk over the tensor infos can have stored under `name`. -/
def FromInfo (info : TensorInfo) (name : ByteString) (entry : Entry) : Prop :=
  info.name = name ∧ onnxShape info.ne = entry.shape ∧ ∃ t, ofCode info.ggmlType = some t ∧
    toOnnx t = entry.dtype ∧ tryTotalBytes t (elementCount info.ne) = some entry.data.length

theorem addInfos_origin (dataStart : Nat) (infos : List TensorInfo) (skipped : List ByteString)
    (pool : TensorPool) :
    (addInfos path file dataStart infos skipped pool).2.entries.length ≤
        pool.entries.length + infos.length ∧
      ∀ name entry, (addInfos path file dataStart infos skipped pool).2.find? name = some entry →
        pool.find? name = some entry ∨ ∃ info ∈ infos, FromInfo info name entry := by
  induction infos generalizing skipped pool with
  | nil => exact ⟨Nat.le_refl _, fun name entry h => .inl h⟩
  | cons info infos ih =>
    have hweaken : ∀ {name entry}, (∃ i ∈ infos, FromInfo i name entry) →
        ∃ i ∈ info :: infos, FromInfo i name entry :=
      fun ⟨i, hi, hf⟩ => ⟨i, mem_cons_of_mem _ hi, hf⟩
    rw [addInfos, length_cons]
    cases hcode : ofCode info.ggmlType with
    | none =>
      obtain ⟨hlen, hfind⟩ := ih (skipped ++ [info.name]) pool
      exact ⟨by simp only; omega, fun name entry h => (hfind name entry h).imp_right hweaken⟩
    | some t =>
      cases hbytes : tryTotalBytes t (elementCount info.ne) with
      | none =>
        simp only [hbytes]
        exact ⟨by omega, fun name entry h => .inl h⟩
      | some nbytes =>
        simp only [hbytes]
        split
        · exact ⟨by simp only; omega, fun name entry h => .inl h⟩
        · next hrange =>
          obtain ⟨hlen, hfind⟩ := ih skipped (pool.insert info.name ⟨toOnnx t, onnxShape info.ne,
            (file.drop ((dataStart + info.offset) % 2 ^ 64)).take nbytes⟩)
          have hins := pool.length_insert_le info.name ⟨toOnnx t, onnxShape info.ne,
            (file.drop ((dataStart + info.offset) % 2 ^ 64)).take nbytes⟩
          refine ⟨by omega, fun name entry h => ?_⟩
          rcases hfind name entry h with h | h
          · rw [SortedMap.find?_insert] at h
            split at h
            · next hname =>
              cases h
              refine .inr ⟨info, mem_cons_self, hname.symm, rfl, t, hcode, rfl, ?_⟩
              rw [hbytes, length_take_of_le (by rw [List.length_drop]; omega)]
            · exact .inl h
          · exact .inr (hweaken h)

theorem loadGGUF_limits {prior pool : TensorPool} {skipped : List ByteString}
    (h : loadGGUF prior path file = (.ok skipped, pool)) :
    pool.entries.length ≤ kMaxTensorCount ∧
      ∀ p ∈ pool.entries, ∃ info, InfoLimits info ∧ FromInfo info p.1 p.2 := by
  rw [loadGGUF] at h
  split at h
  · cases h
  · next infos dataStart c hr =>
    obtain ⟨hcount, hinfos⟩ := yields_readHeader file path _ _ _ hr
    obtain ⟨hlen, hfind⟩ := addInfos_origin file path dataStart infos [] .empty
    rw [h] at hlen hfind
    refine ⟨?_, fun p hp => ?_⟩
    · simp only [SortedMap.empty, length_nil] at hlen hcount
      omega
    · rcases hfind p.1 p.2 ((pool.find?_eq_some_iff p.1 p.2).mpr hp) with he | ⟨info, hi, hf⟩
      · cases he
      · exact ⟨info, hinfos info hi, hf⟩

def KvLimits (kv : SortedMap ByteString MetadataValue) : Prop :=
  ∀ k v, kv.find? k = some (.string v) → k.length ≤ kMaxStringLen ∧ v.length ≤ kMaxStringLen

theorem yields_readOneMetadataValue (valueType : Nat) :
    Yields (readOneMetadataValue file path valueType) fun value =>
      ∀ s, value = some (.string s) → s.length ≤ kMaxStringLen := by
  rw [readOneMetadataValue]
  split
  · refine (yields_readGGUFString path).bind fun s hs => yields_pure fun s' h => ?_
    cases h
    exact hs
  split
  · exact yields_bind fun _ => yields_pure (by simp)
  · have hscalar : Yields (decodeScalarMetadataValue path valueType) fun v => ∀ s, v ≠ .string s := by
      rw [decodeScalarMetadataValue]
      split
      · exact yields_failRead path _ _
      · refine yields_bind fun bytes => yields_pure fun s => ?_
        repeat' split
        all_goals simp
    exact hscalar.bind fun v hv => yields_pure fun s h => absurd (Option.some.inj h) (hv s)

theorem yields_readKv (n : Nat) (kv : SortedMap ByteString MetadataValue) (hkv : KvLimits kv) :
    Yields (readKv file path n kv) fun kv' =>
      kv'.entries.length ≤ kv.entries.length + n ∧ KvLimits kv' := by
  induction n generalizing kv with
  | zero => exact yields_pure ⟨Nat.le_refl _, hkv⟩
  | succ n ih =>
    refine (yields_readGGUFString path).bind fun key hkey => yields_bind fun valueType => ?_
    refine (yields_readOneMetadataValue file path valueType).bind fun value hvalue => ?_
    cases value with
    | none =>
      intro c kv' c' h
      obtain ⟨hlen, hl⟩ := ih kv hkv c kv' c' h
      exact ⟨by omega, hl⟩
    | some v =>
      intro c kv' c' h
      have hins : KvLimits (kv.insert key v) := by
        intro k s hs
        rw [SortedMap.find?_insert] at hs
        split at hs
        · next hk => exact ⟨hk ▸ hkey, hvalue s hs⟩
        · exact hkv k s hs
      obtain ⟨hlen, hl⟩ := ih _ hins c kv' c' h
      have := kv.length_insert_le key v
      exact ⟨by omega, hl⟩

theorem readGGUFMetadata_limits {m : GGUFMetadata} (h : readGGUFMetadata path file = .ok m) :
    m.kv.entries.length ≤ kMaxMetadataCount ∧ KvLimits m.kv := by
  rw [readGGUFMetadata] at h
  split at h
  · cases h
  · next m' c hr =>
    cases h
    have hempty : KvLimits .empty := fun k v hk => by cases hk
    refine Yields.bind (Q := fun m => m.kv.entries.length ≤ kMaxMetadataCount ∧ KvLimits m.kv)
      (yields_readCounts path) (fun counts hc => ?_) _ _ _ hr
    refine (yields_readKv file path counts.2 .empty hempty).bind fun kv hkv => ?_
    refine yields_bind fun infos => yields_pure ⟨?_, hkv.2⟩
    have hlen := hkv.1
    simp only [SortedMap.empty, length_nil] at hlen ⊢
    omega

end Onnxsim.Storage.GgufLimits

namespace Onnxsim.Storage.GgufRoundTrip

open List Lib.Bytes Lib.OrderedMaps Lib.Readers Pool
open GgufTypes Gguf GgufReads
open GgufLayout GgufLimits

theorem placeFrom_map (l : List (ByteString × Entry)) (running : Nat) :
    (placeFrom running l).map (fun t => (t.1, t.2.1)) = l := by
  induction l generalizing running with
  | nil => rfl
  | cons p l ih => simp only [placeFrom, map_cons, ih]

theorem placeFrom_length (l : List (ByteString × Entry)) (running : Nat) :
    (placeFrom running l).length = l.length := by
  rw [← length_map (f := fun t => (t.1, t.2.1)), placeFrom_map]

theorem alignUp_lt {v : Nat} (h : v < 2 ^ 64) (align : Nat) : alignUp v align < 2 ^ 64 := by
  rw [alignUp]
  split
  · exact h
  split
  · exact h
  · exact Nat.mod_lt _ (by decide)

theorem placeFrom_offset {l : List (ByteString × Entry)} {running : Nat} (h : running < 2 ^ 64) :
    ∀ t ∈ placeFrom running l, t.2.2.1 < 2 ^ 64 := by
  induction l generalizing running with
  | nil => simp [placeFrom]
  | cons p l ih =>
    intro t ht
    rcases mem_cons.mp ht with rfl | ht
    · have hb := alignUp_lt h kDefaultAlignment
      exact hb
    · exact ih (Nat.mod_lt _ (by decide)) t ht

/-- The limits of the reader that the writer does not check. -/
structure WithinLimits (pool : TensorPool) (metadata : StringMap) : Prop where
  tensors : pool.entries.length ≤ kMaxTensorCount
  keys : metadata.entries.length ≤ kMaxMetadataCount
  names : ∀ p ∈ pool.entries, p.1.length ≤ kMaxStringLen
  ranks : ∀ p ∈ pool.entries, p.2.shape.length ≤ kMaxDims
  counts : ∀ p ∈ pool.entries, elements p.2.shape < 2 ^ 64
  strings : ∀ p ∈ metadata.entries, Readable p

section

variable {pool : TensorPool} {metadata : StringMap} (h : WithinLimits pool metadata)

theorem headerBytes_eq : headerBytes pool metadata =
    countsBytes pool.entries.length metadata.entries.length ++ (metadata.entries.flatMap metadataBytes ++
      (placeFrom 0 pool.entries).flatMap fun t => infoBytes t.1 t.2.1 t.2.2.1) := by
  simp only [headerBytes, countsBytes, append_assoc]

include h

theorem reads_infos (path : String) :
    Reads (readMany (readTensorInfo path) pool.entries.length)
      ((placeFrom 0 pool.entries).flatMap fun t => infoBytes t.1 t.2.1 t.2.2.1)
      ((placeFrom 0 pool.entries).map infoOf) Any := by
  have hmem : ∀ t ∈ placeFrom 0 pool.entries, (t.1, t.2.1) ∈ pool.entries := fun t ht => by
    rw [← placeFrom_map pool.entries 0]
    exact List.mem_map.mpr ⟨t, ht, rfl⟩
  rw [← placeFrom_length pool.entries 0]
  refine reads_readMany _ (fun t : Placed => infoBytes t.1 t.2.1 t.2.2.1) infoOf _ fun t ht => ?_
  exact reads_readTensorInfo path ⟨h.names _ (hmem t ht), h.ranks _ (hmem t ht),
    placeFrom_offset (by decide) t ht⟩

theorem readHeader_headerBytes (file : ByteString) (path : String) (ys : ByteString) :
    readHeader file path ⟨0, headerBytes pool metadata ++ ys⟩ =
      .ok (((placeFrom 0 pool.entries).map infoOf, dataSectionStart pool metadata),
        ⟨(headerBytes pool metadata).length, ys⟩) := by
  have hcounts := reads_readCounts path h.tensors h.keys
  have halign := reads_readAlignment file path kDefaultAlignment metadata.entries h.strings
  have hinfos := reads_infos h path
  rw [dataSectionStart, headerBytes_eq, append_assoc, append_assoc, readHeader,
    run_bind_ok (hcounts 0 _ trivial), run_bind_ok (halign _ _ trivial),
    run_bind_ok (hinfos _ _ trivial)]
  simp only [length_append, Nat.zero_add, Nat.add_assoc]

omit h in
theorem cursor_fileBytes : (⟨0, fileBytes pool metadata⟩ : Cursor Byte) =
    ⟨0, headerBytes pool metadata ++ (writePadding (dataSectionStart pool metadata -
      (headerBytes pool metadata).length) ++ dataFrom 0 (placeFrom 0 pool.entries))⟩ := by
  rw [fileBytes, append_assoc]

theorem loadGGUF_fileBytes (prior : TensorPool) (path : String)
    (hsized : ∀ p ∈ pool.entries, WellSized p.2)
    (hsize : (fileBytes pool metadata).length < maxFileSize) :
    loadGGUF prior path (fileBytes pool metadata) = (.ok [], pool) := by
  have hfile : fileBytes pool metadata = (headerBytes pool metadata ++ writePadding
      (dataSectionStart pool metadata - (headerBytes pool metadata).length)) ++
        ([] ++ dataFrom 0 (placeFrom 0 pool.entries)) := rfl
  have hheader : (headerBytes pool metadata).length < 2 ^ 63 := by
    rw [fileBytes, maxFileSize] at hsize
    simp only [length_append] at hsize
    omega
  obtain ⟨pad, -, ha⟩ := alignUp_eq hheader
  have hstart : (headerBytes pool metadata ++ writePadding (dataSectionStart pool metadata -
      (headerBytes pool metadata).length)).length = dataSectionStart pool metadata := by
    rw [length_append, writePadding, length_replicate, dataSectionStart, ha]
    omega
  have hadd := addInfos_placeFrom path _ pool.entries [] .empty hsized h.counts
    (by rwa [hfile, maxFileSize] at hsize)
  rw [hstart, SortedMap.foldl_insert_entries] at hadd
  rw [loadGGUF, cursor_fileBytes, readHeader_headerBytes h]
  exact hadd

theorem readGGUFMetadata_fileBytes (path : String) :
    readGGUFMetadata path (fileBytes pool metadata) = .ok
      ⟨metadata.mapVals .string, pool.entries.map fun p => ⟨p.1, p.2.shape, typeCode p.2⟩⟩ := by
  have hcounts := reads_readCounts path h.tensors h.keys
  have hkv := reads_readKv (fileBytes pool metadata) path metadata.entries h.strings .empty
  have hinfos := reads_infos h path
  have htensors : ((placeFrom 0 pool.entries).map infoOf).map
      (fun i => (⟨i.name, onnxShape i.ne, i.ggmlType⟩ : GGUFTensorInfo)) =
        pool.entries.map fun p => ⟨p.1, p.2.shape, typeCode p.2⟩ := by
    conv_rhs => rw [← placeFrom_map pool.entries 0]
    rw [List.map_map, List.map_map]
    refine map_congr_left fun t _ => ?_
    simp only [Function.comp_apply, infoOf, onnxShape_ne]
  rw [SortedMap.foldl_insert_mapVals] at hkv
  have hreads : Reads (readMetadata (fileBytes pool metadata) path)
      (countsBytes pool.entries.length metadata.entries.length ++ (metadata.entries.flatMap
        metadataBytes ++ (((placeFrom 0 pool.entries).flatMap fun t => infoBytes t.1 t.2.1 t.2.2.1)
          ++ []))) ⟨metadata.mapVals .string, ((placeFrom 0 pool.entries).map infoOf).map
            fun i => ⟨i.name, onnxShape i.ne, i.ggmlType⟩⟩ Any := by
    refine hcounts.bind ?_ fun _ _ => trivial
    refine hkv.bind ?_ fun _ _ => trivial
    exact hinfos.bind (reads_pure _ Any) fun _ _ => trivial
  rw [append_nil, ← headerBytes_eq, htensors] at hreads
  rw [readGGUFMetadata, cursor_fileBytes, hreads 0 _ trivial]

end

/-- What `SaveGGUF` wrote is read back as the pool and the metadata that went in. -/
def RoundTrips (pool : TensorPool) (metadata : StringMap) (file : ByteString) : Prop :=
  (∀ prior path, loadGGUF prior path file = (.ok [], pool)) ∧
    ∀ path, ∃ m, readGGUFMetadata path file = .ok m ∧ m.kv = metadata.mapVals .string ∧
      m.tensors = pool.entries.map fun p => ⟨p.1, p.2.shape, typeCode p.2⟩

theorem eq_of_saveGGUF {pool : TensorPool} {path : String} {metadata : StringMap} {saved : Saved}
    (h : saveGGUF pool path metadata = .ok saved) :
    saved.file = fileBytes pool metadata ∧ (fileBytes pool metadata).length < maxFileSize := by
  rw [saveGGUF] at h
  split at h
  · cases h
  split at h
  · cases h
  · next hlt =>
    cases h
    exact ⟨rfl, Nat.not_le.mp hlt⟩

theorem saveGGUF_ok {pool : TensorPool} (path : String) {metadata : StringMap}
    (hd : ∀ p ∈ pool.entries, fromOnnx p.2.dtype ≠ none)
    (hsize : (fileBytes pool metadata).length < maxFileSize) :
    ∃ saved, saveGGUF pool path metadata = .ok saved ∧ saved.file = fileBytes pool metadata := by
  have hnone : pool.entries.find? (fun p => fromOnnx p.2.dtype = none) = none := by
    simpa using fun a b hp => hd (a, b) hp
  rw [saveGGUF, hnone]
  exact ⟨_, if_neg (Nat.not_le.mpr hsize), rfl⟩

theorem elements_lt_of_fromInfo {info : TensorInfo} {name : ByteString} {entry : Entry}
    (hinfo : FromInfo info name entry) (hsized : WellSized entry) :
    elements entry.shape < 2 ^ 64 := by
  obtain ⟨-, hshape, t', hcode, hdt', hbytes⟩ := hinfo
  obtain ⟨t, n, hdt, hel, hdvd, hdata⟩ := hsized
  have ht : t' = t := by
    have he := fromOnnx_toOnnx t'
    rw [hdt', hdt] at he
    exact (Option.some.inj he).symm
  subst ht
  rw [← hshape] at hel
  rw [tryTotalBytes_eq, blockBytesOf, elementCount_of_elements hel] at hbytes
  split at hbytes
  · cases hbytes
  · have hlen : n / (block t').1 * (block t').2 ≤ n % 2 ^ 64 / (block t').1 * (block t').2 := by
      rw [← hdata, ← Option.some.inj hbytes]
      exact Nat.mod_le _ _
    have hblocks : n / (block t').1 ≤ n % 2 ^ 64 / (block t').1 :=
      Nat.le_of_mul_le_mul_right hlen (block_pos t').2
    have hn : n ≤ n % 2 ^ 64 := calc
      n = n / (block t').1 * (block t').1 := (Nat.div_mul_cancel hdvd).symm
      _ ≤ n % 2 ^ 64 / (block t').1 * (block t').1 := Nat.mul_le_mul_right _ hblocks
      _ ≤ n % 2 ^ 64 := Nat.div_mul_le_self _ _
    rw [← hshape, hel]
    omega

theorem withinLimits_of_roundTrips {pool : TensorPool} {metadata : StringMap} {file : ByteString}
    (hsized : ∀ p ∈ pool.entries, WellSized p.2) (h : RoundTrips pool metadata file) :
    WithinLimits pool metadata := by
  obtain ⟨hload, hmeta⟩ := h
  obtain ⟨hcount, hentries⟩ := loadGGUF_limits file "" (hload .empty "")
  obtain ⟨m, hm, hkv, -⟩ := hmeta ""
  obtain ⟨hkeys, hstrings⟩ := readGGUFMetadata_limits file "" hm
  rw [hkv] at hkeys hstrings
  refine ⟨hcount, ?_, fun p hp => ?_, fun p hp => ?_, fun p hp => ?_, fun p hp => ?_⟩
  · simpa only [SortedMap.mapVals, length_map] using hkeys
  · obtain ⟨info, hlim, hfrom⟩ := hentries p hp
    exact hfrom.1 ▸ hlim.name
  · obtain ⟨info, hlim, hfrom⟩ := hentries p hp
    rw [← hfrom.2.1, onnxShape, length_map, length_reverse]
    exact hlim.rank
  · obtain ⟨info, -, hfrom⟩ := hentries p hp
    exact elements_lt_of_fromInfo hfrom (hsized p hp)
  · obtain ⟨hk, hv⟩ := hstrings p.1 p.2 (metadata.find?_mapVals MetadataValue.string hp)
    exact ⟨hk, hv⟩

/-- A saved file is read back exactly when the pool and its metadata stay within the reader's
limits, none of which the writer checks. -/
theorem roundTrips_iff_withinLimits {pool : TensorPool} {path : String} {metadata : StringMap}
    {saved : Saved} (hsized : ∀ p ∈ pool.entries, WellSized p.2)
    (hsave : saveGGUF pool path metadata = .ok saved) :
    RoundTrips pool metadata saved.file ↔ WithinLimits pool metadata := by
  obtain ⟨hfile, hsize⟩ := eq_of_saveGGUF hsave
  rw [hfile]
  constructor
  · exact withinLimits_of_roundTrips hsized
  · intro h
    refine ⟨fun prior path => loadGGUF_fileBytes h prior path hsized hsize, fun path => ?_⟩
    exact ⟨_, readGGUFMetadata_fileBytes h path, rfl, rfl⟩

def scalarEntry (rank : Nat) : Entry := ⟨3, List.replicate rank 1, [7]⟩

def rankPool (rank : Nat) : TensorPool := SortedMap.empty.insert (ascii "w") (scalarEntry rank)

def alignmentMetadata : StringMap := SortedMap.empty.insert (ascii "general.alignment") (ascii "64")

theorem rankPool_wellSized (rank : Nat) : ∀ p ∈ (rankPool rank).entries, WellSized p.2 := by
  intro p hp
  obtain rfl : p = (ascii "w", scalarEntry rank) := mem_singleton.mp hp
  have hdt : fromOnnx 3 = some .i8 := by decide
  have hel : elements (scalarEntry rank).shape = (1 : Nat) := by simp [elements, scalarEntry]
  exact ⟨.i8, 1, hdt, hel, Nat.one_dvd _, rfl⟩

theorem rankPool_saved (rank : Nat) (metadata : StringMap)
    (hsize : (fileBytes (rankPool rank) metadata).length < maxFileSize) :
    ∃ saved, saveGGUF (rankPool rank) "m.gguf" metadata = .ok saved ∧
      saved.file = fileBytes (rankPool rank) metadata := by
  refine saveGGUF_ok "m.gguf" (fun p hp => ?_) hsize
  obtain rfl : p = (ascii "w", scalarEntry rank) := mem_singleton.mp hp
  have hdt : fromOnnx 3 ≠ none := by decide
  exact hdt

theorem roundTrips_alignment_key :
    RoundTrips (rankPool 2) alignmentMetadata (fileBytes (rankPool 2) alignmentMetadata) := by
  obtain ⟨saved, hsave, hfile⟩ :=
    rankPool_saved 2 alignmentMetadata (by decide +kernel)
  rw [← hfile]
  refine (roundTrips_iff_withinLimits (rankPool_wellSized 2) hsave).mpr ?_
  refine ⟨by decide, by decide, by decide, by decide, by decide, fun p hp => ?_⟩
  obtain rfl := mem_singleton.mp hp
  exact ⟨by decide, by decide⟩

theorem rank_nine_rejected :
    (∀ p ∈ (rankPool 9).entries, WellSized p.2) ∧
      ∃ saved, saveGGUF (rankPool 9) "m.gguf" .empty = .ok saved ∧
        ¬ RoundTrips (rankPool 9) .empty saved.file := by
  obtain ⟨saved, hsave, -⟩ := rankPool_saved 9 .empty (by decide +kernel)
  refine ⟨rankPool_wellSized 9, saved, hsave, fun h => ?_⟩
  have hranks := (withinLimits_of_roundTrips (rankPool_wellSized 9) h).ranks
  exact absurd (hranks _ mem_cons_self) (by decide)

end Onnxsim.Storage.GgufRoundTrip
