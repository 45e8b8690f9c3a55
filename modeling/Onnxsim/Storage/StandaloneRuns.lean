import Onnxsim.Storage.StandaloneSound

namespace Onnxsim.Storage.StandaloneRuns

open List Option Lib.Bytes Lib.OrderedMaps Pool Archive
open ArchiveTrip Safetensors Standalone
open StandaloneSound Traversal

variable {serialize : ModelProto → Option ByteString} {disk : Disk} {m : ModelProto} {path : ByteString}
  {pool : TensorPool} {external : Option ExternalBytes}

/-- The disk takes the whole archive of a pool, whose tensors all have a safetensors dtype. -/
structure Storable (disk : Disk) (pool : TensorPool) : Prop where
  dtypes : ∀ p ∈ pool.entries, toSafetensors p.2.dtype ≠ []
  opens : disk.opens = true
  room : (fileBytes pool).length ≤ disk.room

theorem Storable.lt (h : Storable disk pool) : (fileBytes pool).length < maxFileSize :=
  lt_of_le_of_lt h.room disk.room_lt

theorem writeArchive_of_storable (h : Storable disk pool) :
    writeArchive disk pool path = (.ok (offsetsOf pool), some (fileBytes pool)) := by
  have hnone : pool.entries.find? (fun p => toSafetensors p.2.dtype = []) = none := by
    simpa using fun a b hp => h.dtypes (a, b) hp
  rw [writeArchive, hnone]
  simp only [h.opens, Bool.not_true, Bool.false_eq_true, if_false]
  rw [if_neg (Nat.not_lt.mpr h.room)]

theorem writeArchive_of_not_storable (path : ByteString) (h : ¬ Storable disk pool) :
    ∃ e file, writeArchive disk pool path = (.error e, file) := by
  rw [writeArchive]
  cases hfind : pool.entries.find? (fun p => toSafetensors p.2.dtype = []) with
  | some p => exact ⟨_, _, rfl⟩
  | none =>
    by_cases hopens : disk.opens = true
    · by_cases hroom : disk.room < (fileBytes pool).length
      · simp only [hopens, Bool.not_true, Bool.false_eq_true, if_false]
        rw [if_pos hroom]
        exact ⟨_, _, rfl⟩
      · refine absurd ⟨fun p hp => ?_, hopens, Nat.not_lt.mp hroom⟩ h
        simpa using find?_eq_none.mp hfind p hp
    · rw [Bool.not_eq_true] at hopens
      simp only [hopens, Bool.not_false, if_true]
      exact ⟨_, _, rfl⟩

theorem adopt_spec (hkeys : ((visited m.graph).map Prod.fst).Nodup) (mark : TensorProto → TensorProto) :
    tensorsOf (visited (forEachTensor (adoptTensor mark) m.graph ⟨pool, external, []⟩).1) =
        (visited m.graph).map (stripped external fun _ => mark) ∧
      (forEachTensor (adoptTensor mark) m.graph ⟨pool, external, []⟩).2.pool =
        archived external pool (visited m.graph) ∧
      (forEachTensor (adoptTensor mark) m.graph ⟨pool, external, []⟩).2.adopted =
        (visited m.graph).map fun p => (moved external p).map fun _ => p.1 := by
  obtain ⟨htensors, hstate⟩ := tensors_forEach (adoptTensor mark) m.graph ⟨pool, external, []⟩
  obtain ⟨hadopted, hpool, hkept⟩ := threaded_adopt mark hkeys ⟨pool, external, []⟩
  exact ⟨htensors.trans hadopted, hstate ▸ hpool, hstate ▸ hkept⟩

/-- The model once its tensors' bytes have been moved and only placeholders refer to them. -/
def placeholder (external : Option ExternalBytes) (path : ByteString) (pool : TensorPool) (m : ModelProto) :
    ModelProto :=
  ⟨(adoptAllWithPlaceholderOffsets m.graph path pool external).1, m.other⟩

/-- Nothing goes wrong before the offsets are patched: no tensor and no earlier entry has the reserved key, the
byte-free model has an encoding, and the archive can be written and its header read. -/
structure Reaches (serialize : ModelProto → Option ByteString) (disk : Disk) (external : Option ExternalBytes)
    (m : ModelProto) (path : ByteString) (pool : TensorPool) : Prop where
  reserved : (archived external pool (visited m.graph)).find? kEmbeddedModelKey = none
  stored : ∃ blob, serialize (placeholder external path pool m) = some blob ∧
    Storable disk ((archived external pool (visited m.graph)).insert kEmbeddedModelKey (modelEntry blob))
  reads : disk.reads = true

theorem tensors_placeholder (hkeys : ((visited m.graph).map Prod.fst).Nodup) :
    tensorsOf (visited (placeholder external path pool m).graph) = (visited m.graph).map
      (stripped external fun _ => setExternal path (fixedWidthDecimal 0) (fixedWidthDecimal 0)) :=
  (adopt_spec hkeys _).1

theorem stops_at_placeholder (hkeys : ((visited m.graph).map Prod.fst).Nodup)
    (h : ¬ Reaches serialize disk external m path pool) :
    (saveModelAsSafetensorsStandalone serialize disk m path pool external).model = placeholder external path pool m ∧
      ∃ e, (saveModelAsSafetensorsStandalone serialize disk m path pool external).result = .error e := by
  have hpool : (adoptAllWithPlaceholderOffsets m.graph path pool external).2.pool =
      archived external pool (visited m.graph) := (adopt_spec hkeys _).2.1
  dsimp only [saveModelAsSafetensorsStandalone]
  rw [hpool]
  cases hreserved : (archived external pool (visited m.graph)).find? kEmbeddedModelKey with
  | some e => exact ⟨rfl, _, rfl⟩
  | none =>
    simp only [isSome_none, Bool.false_eq_true, if_false]
    cases hserialize : serialize (placeholder external path pool m) with
    | none =>
      rw [placeholder] at hserialize
      simp only [hserialize]
      exact ⟨rfl, _, rfl⟩
    | some blob =>
      have hmodel := hserialize
      rw [placeholder] at hserialize
      simp only [hserialize]
      by_cases hstore : Storable disk ((archived external pool (visited m.graph)).insert kEmbeddedModelKey
          (modelEntry blob))
      · have hreads : disk.reads = false := by
          rw [← Bool.not_eq_true]
          exact fun hreads => h ⟨hreserved, ⟨blob, hmodel, hstore⟩, hreads⟩
        rw [writeArchive_of_storable hstore]
        simp only [finishStandalone, headerPrefixSize, hreads, Bool.not_false, if_true]
        exact ⟨rfl, _, rfl⟩
      · obtain ⟨e, file, hwrite⟩ := writeArchive_of_not_storable path hstore
        rw [hwrite]
        exact ⟨rfl, e, rfl⟩

/-- The pool that is written, with these bytes for the model. -/
def written (external : Option ExternalBytes) (pool : TensorPool) (m : ModelProto) (e : Entry) : TensorPool :=
  (archived external pool (visited m.graph)).insert kEmbeddedModelKey e

/-- The caller's model after its placeholders have been patched. -/
def patched (external : Option ExternalBytes) (path : ByteString) (pool : TensorPool) (m : ModelProto) (e : Entry) :
    ModelProto :=
  ⟨(forEachTensor (markTensor (patchOffsets (offsetsOf (written external pool m e))
    (prefixOf (written external pool m e)).length)) (placeholder external path pool m).graph
      ((visited m.graph).map fun p => (moved external p).map fun _ => p.1)).1, m.other⟩

theorem tensors_patched (hkeys : ((visited m.graph).map Prod.fst).Nodup) (e : Entry) :
    tensorsOf (visited (patched external path pool m e).graph) = (visited m.graph).map
      (stripped external fun name t => patchOffsets (offsetsOf (written external pool m e))
        (prefixOf (written external pool m e)).length name
          (setExternal path (fixedWidthDecimal 0) (fixedWidthDecimal 0) t)) :=
  (tensors_forEach _ _ _).1.trans (threaded_mark (tensors_placeholder hkeys))

theorem length_patched (hkeys : ((visited m.graph).map Prod.fst).Nodup) (hwidth : KeepsWidth serialize) (e : Entry) :
    (serialize (patched external path pool m e)).map List.length =
      (serialize (placeholder external path pool m)).map List.length := by
  refine hwidth _ _ (placeholder external path pool m) _ ?_
  have hpatched := @tensors_patched m path pool external hkeys e
  rw [patched] at hpatched
  rw [hpatched, tensors_placeholder hkeys, forall₂_map_left_iff, forall₂_map_right_iff, forall₂_same]
  intro p hp
  rw [stripped, stripped]
  have hzero := length_fixedWidthDecimal (v := 0) (by decide)
  have hrefl : ∀ es : List (ByteString × ByteString),
      List.Forall₂ (fun e e' => e'.1 = e.1 ∧ e'.2.length = e.2.length) es es :=
    fun es => forall₂_same.mpr fun _ _ => ⟨rfl, rfl⟩
  cases moved external p with
  | none => exact ⟨rfl, hrefl _⟩
  | some bytes =>
    simp only [patchOffsets_setExternal]
    refine ⟨rfl, .cons ⟨rfl, rfl⟩ (.cons ⟨rfl, ?_⟩ (.cons ⟨rfl, ?_⟩ .nil))⟩
    · exact (length_fixedWidthDecimal (Nat.mod_lt _ (by decide))).trans hzero.symm
    · exact (length_fixedWidthDecimal (Nat.mod_lt _ (by decide))).trans hzero.symm

theorem leaves_patched (hkeys : ((visited m.graph).map Prod.fst).Nodup) {e : Entry} {w : ByteString}
    (hw : w.length ≤ e.data.length)
    (hreserved : (archived external pool (visited m.graph)).find? kEmbeddedModelKey = none)
    (hlen : (fileBytes (written external pool m e)).length < maxFileSize) :
    Leaves (Refers path (some (overwrite (fileBytes (written external pool m e))
      ((prefixOf (written external pool m e)).length +
        (range (offsetsOf (written external pool m e)) kEmbeddedModelKey).1) w)))
      external m (patched external path pool m e) := by
  rw [leaves_iff (tensors_patched hkeys e)]
  intro p hp bytes hm
  have harchived := mem_archived hkeys hp hm pool
  have hne : p.1 ≠ kEmbeddedModelKey := by
    intro heq
    rw [heq, hreserved] at harchived
    cases harchived
  rw [patchOffsets_setExternal, refers_setExternal, digitsValue_fixedWidthDecimal, digitsValue_fixedWidthDecimal,
    getD_some, written, overwrite_insert hw hlen]
  obtain ⟨hoffsets, hfront, hsize⟩ := @layout_insert (archived external pool (visited m.graph))
    kEmbeddedModelKey e { e with data := w ++ e.data.drop w.length } rfl rfl
    (by simp only [length_append, List.length_drop]; omega)
  have hfind : ((archived external pool (visited m.graph)).insert kEmbeddedModelKey
      { e with data := w ++ e.data.drop w.length }).find? p.1 = some ⟨p.2.dataType, p.2.dims, bytes⟩ := by
    rw [SortedMap.find?_insert, if_neg hne, harchived]
  rw [written] at hlen
  obtain ⟨b, hrange, hle, hslice⟩ := slice_found (hsize ▸ hlen) hfind
  rw [hoffsets] at hrange
  rw [hfront] at hle hslice
  rw [hsize] at hle
  rw [maxFileSize] at hlen
  rw [Standalone.range, hrange, hsize]
  simp only [getD_some]
  rw [Nat.mod_eq_of_lt (by omega), show b + bytes.length + 2 ^ 64 - b = bytes.length + 2 ^ 64 by omega,
    Nat.add_mod_right, Nat.mod_eq_of_lt (by simp only at hle; omega)]
  exact ⟨hle, hslice⟩

theorem overwrite_nil (file : ByteString) (offset : Nat) : overwrite file offset [] = file := by
  rw [overwrite, append_nil, length_nil, Nat.add_zero, take_append_drop]

/-- A standalone save leaves an exact archive, or throws and loses nothing. -/
def StandaloneSafe (serialize : ModelProto → Option ByteString) (disk : Disk) (external : Option ExternalBytes)
    (m : ModelProto) (path : ByteString) (pool : TensorPool) : Prop :=
  let o := saveModelAsSafetensorsStandalone serialize disk m path pool external
  (o.result = .ok () → Accurate serialize path external m o) ∧ LosesNothing path external m o

theorem holds_of_refers {file : Option ByteString} {m' : ModelProto} (h : Leaves (Refers path file) external m m') :
    Leaves (Holds path file) external m m' := by
  refine List.Forall₂.imp (fun p t ht => ?_) h
  cases hm : moved external p with
  | none => simpa [hm] using ht
  | some bytes =>
    simp only [hm] at ht ⊢
    exact .inr ht

theorem save_of_reaches (hkeys : ((visited m.graph).map Prod.fst).Nodup)
    (hreserved : (archived external pool (visited m.graph)).find? kEmbeddedModelKey = none) {blob final : ByteString}
    (hblob : serialize (placeholder external path pool m) = some blob)
    (hstore : Storable disk (written external pool m (modelEntry blob))) (hreads : disk.reads = true)
    (hfinal : serialize (patched external path pool m (modelEntry blob)) = some final)
    (hlength : final.length = blob.length) :
    saveModelAsSafetensorsStandalone serialize disk m path pool external =
      match patchFileBytes disk (fileBytes (written external pool m (modelEntry blob))) path
        ((prefixOf (written external pool m (modelEntry blob))).length +
          (range (offsetsOf (written external pool m (modelEntry blob))) kEmbeddedModelKey).1) final with
      | (.error e, file) =>
        ⟨patched external path pool m (modelEntry blob), written external pool m (modelEntry blob), some file, .error e⟩
      | (.ok (), file) => ⟨patched external path pool m (modelEntry blob),
        (written external pool m (modelEntry blob)).insert kEmbeddedModelKey (modelEntry final), some file, .ok ()⟩ := by
  obtain ⟨-, hpool, hadopted⟩ := @adopt_spec m pool external hkeys
    (setExternal path (fixedWidthDecimal 0) (fixedWidthDecimal 0))
  rw [placeholder] at hblob
  rw [patched] at hfinal ⊢
  dsimp only [saveModelAsSafetensorsStandalone]
  rw [adoptAllWithPlaceholderOffsets] at hblob ⊢
  rw [hpool, hadopted, hreserved]
  simp only [isSome_none, Bool.false_eq_true, if_false, hblob]
  rw [written] at hstore
  rw [writeArchive_of_storable hstore]
  simp only [finishStandalone, getD_some, headerPrefixSize_fileBytes hreads hstore.lt]
  rw [written, placeholder, adoptAllWithPlaceholderOffsets] at hfinal ⊢
  simp only [hfinal, hlength, ne_eq, not_true_eq_false, if_false]
  all_goals rfl

theorem safe_of_reaches (hkeys : ((visited m.graph).map Prod.fst).Nodup) (hwidth : KeepsWidth serialize)
    (h : Reaches serialize disk external m path pool) : StandaloneSafe serialize disk external m path pool := by
  obtain ⟨hreserved, ⟨blob, hblob, hstore⟩, hreads⟩ := h
  obtain ⟨final, hfinal, hlength⟩ : ∃ final, serialize (patched external path pool m (modelEntry blob)) = some final ∧
      final.length = blob.length := by
    have hsame := @length_patched serialize m path pool external hkeys hwidth (modelEntry blob)
    rw [hblob] at hsame
    exact map_eq_some_iff.mp hsame
  have hleaves : ∀ w : ByteString, w.length ≤ blob.length → Leaves (Refers path (some (overwrite
      (fileBytes (written external pool m (modelEntry blob))) ((prefixOf (written external pool m (modelEntry blob))).length +
        (range (offsetsOf (written external pool m (modelEntry blob))) kEmbeddedModelKey).1) w)))
      external m (patched external path pool m (modelEntry blob)) :=
    fun w hw => leaves_patched hkeys hw hreserved hstore.lt
  rw [StandaloneSafe, save_of_reaches hkeys hreserved hblob hstore hreads hfinal hlength, patchFileBytes]
  by_cases hreopens : disk.reopens = true
  · simp only [hreopens, Bool.not_true, Bool.false_eq_true, if_false]
    by_cases hpatched : disk.patched < final.length
    · rw [if_pos hpatched]
      refine ⟨fun hok => (by cases hok), fun _ => holds_of_refers (hleaves _ ?_)⟩
      rw [length_take]
      omega
    · rw [if_neg hpatched]
      refine ⟨fun _ => ⟨?_, ⟨final, hfinal, ?_⟩, hleaves final hlength.le⟩, fun ⟨e, he⟩ => (by cases he)⟩
      · have hentry : ({ modelEntry blob with data := final ++ (modelEntry blob).data.drop final.length } : Entry) =
            modelEntry final := by
          simp [modelEntry, hlength]
        have hoverwrite := overwrite_insert (k := kEmbeddedModelKey) (e := modelEntry blob) (w := final) hlength.le hstore.lt
        rw [hentry] at hoverwrite
        refine congrArg some (hoverwrite.trans (congrArg fileBytes (SortedMap.ext_find? fun k => ?_)))
        rw [written, SortedMap.find?_insert, SortedMap.find?_insert, SortedMap.find?_insert]
        split <;> rfl
      · rw [SortedMap.find?_insert, if_pos rfl]
  · simp only [Bool.not_eq_true] at hreopens
    simp only [hreopens, Bool.not_false, if_true]
    have hkept := hleaves [] (Nat.zero_le _)
    rw [overwrite_nil] at hkept
    exact ⟨fun hok => (by cases hok), fun _ => holds_of_refers hkept⟩

/-- A standalone save is safe exactly where nothing goes wrong before its patch or no bytes are at stake. -/
theorem standaloneSafe_iff (hkeys : ((visited m.graph).map Prod.fst).Nodup) (hwidth : KeepsWidth serialize) :
    StandaloneSafe serialize disk external m path pool ↔
      Reaches serialize disk external m path pool ∨ OnlyEmpty external m := by
  by_cases hreaches : Reaches serialize disk external m path pool
  · exact iff_of_true (safe_of_reaches hkeys hwidth hreaches) (.inl hreaches)
  obtain ⟨hmodel, e, he⟩ := stops_at_placeholder hkeys hreaches
  rw [StandaloneSafe, LosesNothing, he, hmodel, leaves_iff (tensors_placeholder hkeys), or_iff_right hreaches, OnlyEmpty]
  simp only [holds_setExternal, refers_setExternal, digitsValue_fixedWidthDecimal]
  simp [eq_comm]

theorem moved_none_eq {p : Keyed} : moved none p = adoptable p.2 := by
  rw [moved, Standalone.take, Option.map_map]
  exact Option.map_id'

theorem exportSafe_iff (hkeys : ((visited m.graph).map Prod.fst).Nodup) :
    LosesNothing path none m (exportModelWithSafetensors disk m path pool) ↔
      (Storable disk (archived none pool (visited m.graph)) ∧ disk.reads = true) ∨ OnlyEmpty none m := by
  obtain ⟨htensors, hpool, -⟩ := @adopt_spec m pool none hkeys id
  have hfailed : ∀ (pool' : TensorPool) (file : Option ByteString) (e : String), LosesNothing path none m
      ⟨⟨(forEachTensor (adoptTensor id) m.graph ⟨pool, none, []⟩).1, m.other⟩, pool', file, .error e⟩ ↔ OnlyEmpty none m := by
    intro pool' file e
    rw [LosesNothing, leaves_iff htensors, OnlyEmpty]
    refine (forall_prop_of_true ⟨e, rfl⟩).trans (forall₂_congr fun p _ => forall₂_congr fun bytes hm => ?_)
    rw [moved_none_eq] at hm
    have hlocation := (adoptable_eq_some hm).1
    simp [Holds, Refers, hlocation, eq_comm]
  dsimp only [exportModelWithSafetensors]
  rw [hpool]
  by_cases hstore : Storable disk (archived none pool (visited m.graph))
  · rw [writeArchive_of_storable hstore]
    simp only [getD_some]
    by_cases hreads : disk.reads = true
    · rw [headerPrefixSize_fileBytes hreads hstore.lt]
      exact iff_of_true (by rintro ⟨e, ⟨⟩⟩) (.inl ⟨hstore, hreads⟩)
    · rw [or_iff_right fun h => hreads h.2]
      rw [Bool.not_eq_true] at hreads
      simp only [headerPrefixSize, hreads, Bool.not_false, if_true]
      exact hfailed _ _ _
  · obtain ⟨e, file, hwrite⟩ := writeArchive_of_not_storable path hstore
    rw [hwrite, or_iff_right fun h => hstore h.1]
    exact hfailed _ _ _

theorem embedSafe_iff : LosesNothing path none m (embedOutcome serialize disk m path pool) ↔
    (((visited m.graph).foldl poolStep pool).find? kEmbeddedModelKey = none ∧ serialize (embeddedModel path m) ≠ none) ∨
      ∀ p ∈ visited m.graph, ∀ bytes, adoptable p.2 = some bytes → disk.file.getD [] = bytes := by
  have hleaves : Leaves (Holds path disk.file) none m (embeddedModel path m) ↔
      ∀ p ∈ visited m.graph, ∀ bytes, adoptable p.2 = some bytes → disk.file.getD [] = bytes := by
    have htensors : tensorsOf (visited (embeddedModel path m).graph) = (visited m.graph).map (stripped none fun _ t =>
        { t with dataLocation := .external, externalData := [(ascii "location", path)] }) := by
      rw [embeddedModel, tensorsOf_mapTensors, tensorsOf, List.map_map]
      refine map_congr_left fun p _ => ?_
      rw [Function.comp_apply, externalize, stripped, moved_none_eq]
      all_goals rfl
    rw [leaves_iff htensors]
    simp only [moved_none_eq]
    refine forall₂_congr fun p _ => forall₂_congr fun bytes _ => ?_
    have h₁ : ascii "location" ≠ ascii "offset" := by decide
    have h₂ : ascii "location" ≠ ascii "length" := by decide
    simp [Holds, Refers, referenced, record, digitsValue, h₁, h₂]
  dsimp only [embedOutcome, embedModel]
  rw [forEachTensor_eq (embedTensor_eq path) m.graph pool]
  cases hreserved : ((visited m.graph).foldl poolStep pool).find? kEmbeddedModelKey with
  | some e =>
    refine (forall_prop_of_true ⟨_, rfl⟩).trans (hleaves.trans (or_iff_right ?_).symm)
    exact fun h => (by cases h.1)
  | none =>
    simp only [isSome_none, Bool.false_eq_true, if_false, true_and]
    cases hserialize : serialize (embeddedModel path m) with
    | none =>
      rw [embeddedModel] at hserialize
      rw [hserialize]
      refine (forall_prop_of_true ⟨_, rfl⟩).trans (hleaves.trans (or_iff_right ?_).symm)
      exact fun h => h rfl
    | some blob =>
      rw [embeddedModel] at hserialize
      rw [hserialize]
      exact iff_of_true (by rintro ⟨e, ⟨⟩⟩) (.inl (some_ne_none blob))

/-- A length or a string's length as protobuf writes it below 128. -/
def lengthByte (s : ByteString) : Byte := Fin.ofNat 256 s.length

def encodeRecord (e : ByteString × ByteString) : ByteString :=
  let body := 10 :: lengthByte e.1 :: e.1 ++ 18 :: lengthByte e.2 :: e.2
  106 :: lengthByte body :: body

/-- Protobuf's encoding of the one-weight model once its byte is in an archive. -/
def encodeWeight (m : ModelProto) : Option ByteString :=
  match m.graph with
  | .mk [t] [] [] =>
    if m.other = [] ∧ { t with externalData := [] } = { weight (ascii "w") with rawData := none, dataLocation := .external } then
      let tensor := [8, 1, 16, 2, 66, 1, 119] ++ t.externalData.flatMap encodeRecord ++ [112, 1]
      let graph := 42 :: lengthByte tensor :: tensor
      some (58 :: lengthByte graph :: graph)
    else none
  | _ => none

theorem length_encodeRecords {es es' : List (ByteString × ByteString)}
    (h : List.Forall₂ (fun e e' => e'.1 = e.1 ∧ e'.2.length = e.2.length) es es') :
    (es'.flatMap encodeRecord).length = (es.flatMap encodeRecord).length := by
  induction h with
  | nil => rfl
  | cons hhead hrest ih =>
    rw [flatMap_cons, flatMap_cons, length_append, length_append, ih]
    simp [encodeRecord, hhead.1, hhead.2]

theorem encodeWeight_keepsWidth : KeepsWidth encodeWeight := by
  intro S fn m s hsame
  obtain ⟨⟨initializer, node, other⟩, rest⟩ := m
  match node, initializer with
  | [], [] => rfl
  | .mk _ _ _ :: _, [] => rfl
  | .mk _ _ _ :: _, [_] => rfl
  | [], _ :: _ :: _ => rfl
  | .mk _ _ _ :: _, _ :: _ :: _ => rfl
  | [], [t] =>
    obtain ⟨hfields, hrecords⟩ : SameWidth t (fn (initializerKey 0 t) t s).1 := by
      cases hsame with
      | cons hhead _ => exact hhead
    have hlength := length_encodeRecords hrecords
    have hbare : ({ (fn (initializerKey 0 t) t s).1 with externalData := [] } : TensorProto) =
        { t with externalData := [] } := by
      rw [hfields]
    cases other with
    | cons b other => rfl
    | nil =>
      dsimp only [encodeWeight, forEachTensor, forTensors, forNodes]
      rw [hbare]
      split
      · simp [hlength]
      · rfl

def closedDisk : Disk := ⟨none, false, 0, by decide, true, true, 0⟩

end Onnxsim.Storage.StandaloneRuns
