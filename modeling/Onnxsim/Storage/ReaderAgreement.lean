import Onnxsim.Storage.HeaderPositions

namespace Onnxsim.Storage.ReaderAgreement

open List Lib.Bytes Lib.Loading Lib.OrderedMaps Lib.Readers
open Pool GgufTypes Gguf
open HeaderParser Safetensors Loaders
open HeaderPositions

/-- Both loads fail, or both succeed with the same result and the same pool. -/
def Agree {α : Type} (r r' : Except String α × TensorPool) : Prop :=
  (∃ a, r.1 = .ok a ∧ r'.1 = .ok a ∧ r.2 = r'.2) ∨ (∃ e e', r.1 = .error e ∧ r'.1 = .error e')

variable {α β : Type} {c c' : Cursor Byte} {n : Nat}

theorem Agree.refl (r : Except String α × TensorPool) : Agree r r := by
  cases h : r.1 with
  | error e => exact .inr ⟨e, e, h, h⟩
  | ok a => exact .inl ⟨a, h, h, rfl⟩

theorem checkTensor_agree (loader loader' path : String) (data : ByteString) (th : TensorHeader) :
    (∃ p, checkTensor loader path data th = .ok p ∧ checkTensor loader' path data th = .ok p) ∨
      ∃ e e', checkTensor loader path data th = .error e ∧ checkTensor loader' path data th = .error e' := by
  rw [checkTensor, checkTensor]
  by_cases hrange : data.length < th.endOff
  · rw [if_pos hrange, if_pos hrange]
    exact .inr ⟨_, _, rfl, rfl⟩
  · rw [if_neg hrange, if_neg hrange]
    by_cases hdtype : fromSafetensors th.dtype = onnxUndefined
    · rw [if_pos hdtype, if_pos hdtype]
      exact .inr ⟨_, _, rfl, rfl⟩
    · rw [if_neg hdtype, if_neg hdtype]
      exact .inl ⟨_, rfl, rfl⟩

theorem loadEach_agree {R : Type} {check check' : R → Except String (Option (ByteString × Entry))}
    (h : ∀ r, (∃ p, check r = .ok p ∧ check' r = .ok p) ∨ ∃ e e', check r = .error e ∧ check' r = .error e')
    (rs : List R) (pool : TensorPool) : Agree (loadEach check rs pool) (loadEach check' rs pool) := by
  induction rs generalizing pool with
  | nil => exact Agree.refl _
  | cons r rs ih =>
    rw [loadEach, loadEach]
    rcases h r with ⟨p, hp, hp'⟩ | ⟨e, e', he, he'⟩
    · rw [hp, hp']
      cases p with
      | none => exact ih pool
      | some p => exact ih (pool.insert p.1 p.2)
    · rw [he, he']
      exact .inr ⟨e, e', rfl, rfl⟩

theorem loadSafetensors_agree (mapped : Bool) (prior : TensorPool) (path : String) (file : ByteString) :
    Agree (loadSafetensors prior path file) (loadSafetensorsMmap mapped prior path file) := by
  have hstream := loadSafetensors_runs prior path file
  obtain ⟨loader, hmapped⟩ := loadSafetensorsMmap_runs mapped prior path file
  cases hheaders : headerTensors file with
  | none =>
    rw [hheaders] at hstream hmapped
    obtain ⟨⟨e, he⟩, -⟩ := hstream
    obtain ⟨⟨e', he'⟩, -⟩ := hmapped
    exact .inr ⟨e, e', he, he'⟩
  | some headers =>
    rw [hheaders] at hstream hmapped
    rw [hstream, hmapped]
    exact loadEach_agree (checkTensor_agree _ _ path _) headers.1 .empty

variable {file : ByteString} {path : String}

theorem readLE_bind_ok {f : Nat → FileReader β} {pos k : Nat} (hk : 0 < k) {r : β × Cursor Byte}
    (h : (readLE path k >>= f) (cursorAt file pos) = .ok r) :
    ∃ v, fieldAt file pos k = some v ∧ f v (cursorAt file (pos + k)) = .ok r := by
  cases hv : fieldAt file pos k with
  | none =>
    obtain ⟨e, he⟩ := run_bind_fails (f := f) (@readLE_none _ _ path _ hk hv)
    rw [he] at h
    cases h
  | some v =>
    rw [run_bind_ok (readLE_some hv)] at h
    exact ⟨v, rfl, h⟩

theorem ok_of_bind {p : FileReader α} {f : α → FileReader β} {b : β} (h : (p >>= f) c = .ok (b, c')) :
    ∃ a c₁, p c = .ok (a, c₁) ∧ f a c₁ = .ok (b, c') := by
  rw [run_bind] at h
  cases hp : p c with
  | error e =>
    rw [hp] at h
    cases h
  | ok r =>
    rw [hp] at h
    exact ⟨r.1, r.2, rfl, h⟩

/-- The counts in the first 24 bytes. -/
structure CountsAt (file : ByteString) (m n : Nat) : Prop where
  magic : fieldAt file 0 4 = some kMagic
  version : fieldAt file 4 4 = some kSupportedVersion
  tensors : fieldAt file 8 8 = some m
  metadata : fieldAt file 16 8 = some n
  limits : m ≤ kMaxTensorCount ∧ n ≤ kMaxMetadataCount

theorem countsAt_of_ok {counts : Nat × Nat} (h : readCounts path (cursorAt file 0) = .ok (counts, c)) :
    CountsAt file counts.1 counts.2 ∧ c = cursorAt file 24 := by
  obtain ⟨magic, hmagic, h⟩ := readLE_bind_ok (by decide) h
  split at h
  · cases h
  next hm =>
  obtain ⟨version, hversion, h⟩ := readLE_bind_ok (by decide) h
  split at h
  · cases h
  next hv =>
  obtain ⟨m, hm', h⟩ := readLE_bind_ok (by decide) h
  obtain ⟨n, hn', h⟩ := readLE_bind_ok (by decide) h
  split at h
  · cases h
  split at h
  · cases h
  next hmax hmax' =>
  cases h
  rw [not_not.mp hm] at hmagic
  rw [not_not.mp hv] at hversion
  exact ⟨⟨hmagic, hversion, hm', hn', Nat.not_lt.mp hmax, Nat.not_lt.mp hmax'⟩, rfl⟩

theorem readCounts_ok {m : Nat} (h : CountsAt file m n) :
    readCounts path (cursorAt file 0) = .ok ((m, n), cursorAt file 24) := by
  rw [readCounts, run_bind_ok (readLE_some h.magic), if_neg (not_not.mpr rfl), run_bind_ok (readLE_some h.version),
    if_neg (not_not.mpr rfl), run_bind_ok (readLE_some h.tensors), run_bind_ok (readLE_some h.metadata),
    if_neg (Nat.not_lt.mpr h.limits.1), if_neg (Nat.not_lt.mpr h.limits.2)]
  rfl

/-- A file without tensors whose metadata, with an array at its end, claims more bytes than there are. -/
def EndsInTruncatedArray (file : ByteString) : Prop :=
  ∃ n e, CountsAt file 0 n ∧ metadataEnd file n 24 = some e ∧ file.length < e

theorem layout_of_truncated (h : EndsInTruncatedArray file) : ∃ alignment e,
    readLayoutWith (seekCur file path) path (cursorAt file 0) = .ok (([], alignment), cursorAt file e) ∧
      file.length < e := by
  obtain ⟨n, e, hcounts, hend, hlt⟩ := h
  have hmeta := @ends_metadata file path n kDefaultAlignment 24
  rw [hend] at hmeta
  obtain ⟨alignment, hok⟩ := hmeta
  refine ⟨alignment, e, ?_, hlt⟩
  rw [readLayoutWith, run_bind_ok (readCounts_ok hcounts), run_bind_ok hok]
  rfl

theorem truncated_of_past (h : Past file (readLayoutWith (seekCur file path) path (cursorAt file 0))) :
    EndsInTruncatedArray file := by
  obtain ⟨layout, e, hok, hlt⟩ := h
  obtain ⟨counts, c, hcounts, hok⟩ := ok_of_bind hok
  obtain ⟨hat, rfl⟩ := countsAt_of_ok hcounts
  obtain ⟨alignment, c, halign, hok⟩ := ok_of_bind hok
  obtain ⟨infos, c', hinfos, hok⟩ := ok_of_bind hok
  cases hok
  have hmeta := @ends_metadata file path counts.2 kDefaultAlignment 24
  cases hend : metadataEnd file counts.2 24 with
  | none =>
    rw [hend] at hmeta
    obtain ⟨err, herr⟩ := hmeta
    rw [herr] at halign
    cases halign
  | some e' =>
    rw [hend] at hmeta
    obtain ⟨a, ha⟩ := hmeta
    rw [ha] at halign
    cases halign
    cases hzero : counts.1 with
    | zero =>
      rw [hzero] at hinfos hat
      cases hinfos
      exact ⟨counts.2, e, hat, hend, hlt⟩
    | succ n =>
      rw [hzero] at hinfos
      exfalso
      by_cases he' : e' ≤ file.length
      · obtain ⟨e'', he'', heq⟩ := inside_readMany inside_tensorInfo (n + 1) e' he' infos _ hinfos
        cases heq
        omega
      · obtain ⟨err, herr⟩ := run_bind_fails (f := fun a => readMany (readTensorInfo path) n >>= fun as => pure (a :: as))
          (@fails_tensorInfo_past _ _ path (Nat.not_le.mp he'))
        rw [readMany, herr] at hinfos
        cases hinfos

theorem readOne_of_skip {valueType : Nat} {x : Option Nat} (h : skipMetadataValue file path valueType c = .ok (x, c')) :
    ∃ y, readOneMetadataValue file path valueType c = .ok (y, c') := by
  rw [skipMetadataValue] at h
  rw [readOneMetadataValue]
  split at h
  · next hstring =>
    obtain ⟨s, c₁, hs, h⟩ := ok_of_bind h
    cases h
    exact ⟨_, by rw [if_pos hstring, run_bind_ok hs]; rfl⟩
  · next hstring =>
    rw [if_neg hstring]
    split at h
    · next harray =>
      obtain ⟨u, c₁, hu, h⟩ := ok_of_bind h
      cases h
      exact ⟨_, by rw [if_pos harray, run_bind_ok hu]; rfl⟩
    · next harray =>
      rw [if_neg harray, decodeScalarMetadataValue]
      split at h
      · cases h
      · next hsize =>
        obtain ⟨bytes, c₁, hb, h⟩ := ok_of_bind h
        cases h
        rw [if_neg hsize]
        exact ⟨_, run_bind_ok (run_bind_ok hb)⟩

theorem readKv_of_alignment {alignment alignment' : Nat}
    (h : readAlignment file path n alignment c = .ok (alignment', c')) (kv : SortedMap ByteString MetadataValue) :
    ∃ kv', readKv file path n kv c = .ok (kv', c') := by
  induction n generalizing alignment c kv with
  | zero =>
    cases h
    exact ⟨kv, rfl⟩
  | succ n ih =>
    rw [readAlignment] at h
    obtain ⟨key, c₁, hkey, h⟩ := ok_of_bind h
    obtain ⟨valueType, c₂, htype, h⟩ := ok_of_bind h
    obtain ⟨x, c₃, hx, h⟩ := ok_of_bind h
    obtain ⟨y, hy⟩ := readOne_of_skip hx
    cases y with
    | none =>
      obtain ⟨kv', hkv'⟩ := ih h kv
      exact ⟨kv', by rw [readKv, run_bind_ok hkey, run_bind_ok htype, run_bind_ok hy]; exact hkv'⟩
    | some v =>
      obtain ⟨kv', hkv'⟩ := ih h (kv.insert key v)
      exact ⟨kv', by rw [readKv, run_bind_ok hkey, run_bind_ok htype, run_bind_ok hy]; exact hkv'⟩

def listed (info : TensorInfo) : GGUFTensorInfo := ⟨info.name, onnxShape info.ne, info.ggmlType⟩

variable {infos : List TensorInfo} {dataStart : Nat} {skipped : List ByteString} {pool : TensorPool}

theorem readMetadata_of_header (h : readHeader file path c = .ok ((infos, dataStart), c')) :
    ∃ kv, readMetadata file path c = .ok (⟨kv, infos.map listed⟩, c') := by
  obtain ⟨counts, c₁, hcounts, h⟩ := ok_of_bind h
  obtain ⟨alignment, c₂, halign, h⟩ := ok_of_bind h
  obtain ⟨infos', c₃, hinfos, h⟩ := ok_of_bind h
  cases h
  obtain ⟨kv, hkv⟩ := readKv_of_alignment halign .empty
  exact ⟨kv, by rw [readMetadata, run_bind_ok hcounts, run_bind_ok hkv, run_bind_ok hinfos]; rfl⟩

/-- The tensors of the metadata are those that were skipped, in order, and those that were pooled. -/
structure Lists (tensors : List GGUFTensorInfo) (skipped : List ByteString) (pool : TensorPool) : Prop where
  skipped : skipped = (tensors.filter fun t => (ofCode t.ggmlType).isNone).map GGUFTensorInfo.name
  pooled : pool.mapVals Entry.shape = SortedMap.ofList ((tensors.filter fun t => (ofCode t.ggmlType).isSome).map
    fun t => (t.name, t.shape))

theorem addInfos_lists {skipped' : List ByteString} {pool' : TensorPool}
    (h : addInfos path file dataStart infos skipped pool = (.ok skipped', pool')) :
    skipped' = skipped ++ ((infos.map listed).filter fun t => (ofCode t.ggmlType).isNone).map GGUFTensorInfo.name ∧
      pool'.mapVals Entry.shape = (((infos.map listed).filter fun t => (ofCode t.ggmlType).isSome).map
        fun t => (t.name, t.shape)).foldl (fun m p => m.insert p.1 p.2) (pool.mapVals Entry.shape) := by
  induction infos generalizing skipped pool with
  | nil =>
    cases h
    exact ⟨(append_nil _).symm, rfl⟩
  | cons info infos ih =>
    rw [addInfos] at h
    cases hcode : ofCode info.ggmlType with
    | none =>
      rw [hcode] at h
      obtain ⟨hskip, hpool⟩ := ih h
      have hnone : (ofCode (listed info).ggmlType).isNone = true := by rw [listed, hcode]; rfl
      have hsome : ¬ (ofCode (listed info).ggmlType).isSome = true := by rw [listed, hcode]; simp
      rw [map_cons, filter_cons, filter_cons, if_pos hnone, if_neg hsome, map_cons]
      exact ⟨by rw [hskip, append_assoc]; rfl, hpool⟩
    | some t =>
      rw [hcode] at h
      have hnone : ¬ (ofCode (listed info).ggmlType).isNone = true := by rw [listed, hcode]; simp
      have hsome : (ofCode (listed info).ggmlType).isSome = true := by rw [listed, hcode]; rfl
      rw [map_cons, filter_cons, filter_cons, if_neg hnone, if_pos hsome, map_cons, foldl_cons]
      dsimp only at h
      split at h
      · cases h
      · split at h
        · cases h
        · obtain ⟨hskip, hpool⟩ := ih h
          refine ⟨hskip, ?_⟩
          rw [hpool, SortedMap.mapVals_insert]
          rfl

theorem metadata_lists {prior : TensorPool} (h : loadGGUF prior path file = (.ok skipped, pool)) :
    ∃ m, readGGUFMetadata path file = .ok m ∧ Lists m.tensors skipped pool := by
  rw [loadGGUF] at h
  split at h
  · cases h
  · next infos dataStart c hheader =>
    obtain ⟨kv, hm⟩ := readMetadata_of_header hheader
    obtain ⟨hskip, hpool⟩ := addInfos_lists h
    exact ⟨⟨kv, infos.map listed⟩, by rw [readGGUFMetadata, hm], hskip, hpool⟩

/-- Streaming and mapping a file come to the same, and its metadata lists the tensors of the load. -/
structure SameReaders (path : String) (file : ByteString) : Prop where
  safetensors : ∀ mapped prior,
    Agree (loadSafetensors prior path file) (loadSafetensorsMmap mapped prior path file)
  gguf : ∀ mapped prior, Agree (loadGGUF prior path file) (loadGGUFMmap mapped prior path file)
  metadata : ∀ prior skipped pool, loadGGUF prior path file = (.ok skipped, pool) →
    ∃ m, readGGUFMetadata path file = .ok m ∧ Lists m.tensors skipped pool

theorem layoutOf_compares (hlen : file.length < maxFileSize) :
    layoutOf true path file = layoutOf false path file ∨
      (∃ e, layoutOf true path file = .error e) ∧
        ((∃ e, layoutOf false path file = .error e) ∨ EndsInTruncatedArray file) := by
  have hcompare := @compares_layout _ path hlen
  have hstart : cursorAt file 0 = ⟨0, file⟩ := rfl
  rw [hstart] at hcompare
  rw [layoutOf, layoutOf, if_pos rfl, if_neg Bool.false_ne_true]
  rcases hcompare with ⟨heq, -⟩ | ⟨⟨e, he⟩, ⟨e', he'⟩ | hpast⟩
  · rw [heq]
    exact .inl rfl
  · rw [he, he']
    exact .inr ⟨⟨e, rfl⟩, .inl ⟨e', rfl⟩⟩
  · rw [he]
    exact .inr ⟨⟨e, rfl⟩, .inr (truncated_of_past hpast)⟩

theorem loadGGUF_agree (hlen : file.length < maxFileSize) (htrunc : ¬ EndsInTruncatedArray file) (mapped : Bool)
    (prior : TensorPool) : Agree (loadGGUF prior path file) (loadGGUFMmap mapped prior path file) := by
  cases mapped with
  | false => exact Agree.refl _
  | true =>
    rw [loadGGUF_eq, loadGGUFMmap_eq]
    rcases @layoutOf_compares _ path hlen with heq | ⟨⟨e, he⟩, ⟨e', he'⟩ | h⟩
    · rw [heq]
      exact Agree.refl _
    · rw [he, he']
      exact .inr ⟨e', e, rfl, rfl⟩
    · exact absurd h htrunc

theorem loadGGUF_truncated (hlen : file.length < maxFileSize) (htrunc : EndsInTruncatedArray file) (prior : TensorPool) :
    loadGGUF prior path file = (.ok [], .empty) ∧ ∃ e, (loadGGUFMmap true prior path file).1 = .error e := by
  obtain ⟨alignment, e, hok, hlt⟩ := @layout_of_truncated _ path htrunc
  have hstream : layoutOf false path file = .ok ⟨[], e, alignment⟩ := by
    rw [layoutOf, if_neg Bool.false_ne_true]
    have hstart : (⟨0, file⟩ : Cursor Byte) = cursorAt file 0 := rfl
    rw [hstart, hok]
    rfl
  refine ⟨by rw [loadGGUF_eq, hstream]; rfl, ?_⟩
  rw [loadGGUFMmap_eq]
  have hcompare := @compares_layout _ path hlen
  rcases hcompare with ⟨-, hin⟩ | ⟨⟨err, herr⟩, -⟩
  · obtain ⟨e', he', heq⟩ := hin _ _ hok
    cases heq
    omega
  · refine ⟨err, ?_⟩
    rw [layoutOf, if_pos rfl]
    have hstart : (⟨0, file⟩ : Cursor Byte) = cursorAt file 0 := rfl
    rw [hstart, herr]

/-- A file without tensors that claims a metadata array of five bytes and ends there. -/
def truncatedArrayFile : ByteString :=
  leBytes 4 kMagic ++ leBytes 4 kSupportedVersion ++ leBytes 8 0 ++ leBytes 8 1 ++ ggufString (ascii "a") ++
    leBytes 4 typeArray ++ leBytes 4 0 ++ leBytes 8 5

end Onnxsim.Storage.ReaderAgreement
