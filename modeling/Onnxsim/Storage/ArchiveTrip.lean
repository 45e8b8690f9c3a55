import Onnxsim.Storage.Traversal

namespace Onnxsim.Storage.ArchiveTrip

open List Option Lib.Bytes Lib.OrderedMaps Pool Archive
open Traversal

variable {t : TensorProto} {b blob : ByteString} {p : Keyed} {pool : TensorPool}

section

def externalize (archivePath : ByteString) (t : TensorProto) : TensorProto :=
  match adoptable t with
  | none => t
  | some _ =>
    { t with
      rawData := none
      dataLocation := .external
      externalData := [(ascii "location", archivePath)] }

def poolStep (pool : TensorPool) (p : Keyed) : TensorPool :=
  match adoptable p.2 with
  | none => pool
  | some bytes => pool.insert p.1 ⟨p.2.dataType, p.2.dims, bytes⟩

theorem embedTensor_eq (archivePath k : ByteString) (t : TensorProto) (pool : TensorPool) :
    embedTensor archivePath k t pool = (externalize archivePath t, poolStep pool (k, t)) := by
  rw [embedTensor, externalize, poolStep]
  cases adoptable t <;> rfl

theorem externalize_of_none {archivePath : ByteString} (h : adoptable t = none) : externalize archivePath t = t := by
  rw [externalize, h]

theorem externalize_name (archivePath : ByteString) (t : TensorProto) :
    (externalize archivePath t).name = t.name := by
  rw [externalize]
  cases adoptable t <;> rfl

theorem adoptable_eq_some (h : adoptable t = some b) : t.dataLocation = .default ∧ t.rawData = some b := by
  rw [adoptable] at h
  split at h
  · cases h
  · next hloc =>
    split at h
    · cases h
    · refine ⟨?_, h⟩
      cases hl : t.dataLocation with
      | default => rfl
      | external => exact absurd hl hloc

variable {ks : List Keyed} {k : ByteString}

theorem find?_poolSteps_of_not_mem (h : ∀ p ∈ ks, adoptable p.2 ≠ none → p.1 ≠ k) (pool : TensorPool) :
    (ks.foldl poolStep pool).find? k = pool.find? k := by
  induction ks generalizing pool with
  | nil => rfl
  | cons p ks ih =>
    rw [foldl_cons, ih fun q hq => h q (mem_cons_of_mem _ hq), poolStep]
    cases ha : adoptable p.2 with
    | none => rfl
    | some b =>
      have hne : p.1 ≠ k := h p mem_cons_self (by rw [ha]; exact some_ne_none b)
      rw [SortedMap.find?_insert, if_neg (Ne.symm hne)]

theorem find?_poolSteps_of_mem (hnodup : (ks.map Prod.fst).Nodup) (hp : p ∈ ks) (hb : adoptable p.2 = some b)
    (pool : TensorPool) :
    (ks.foldl poolStep pool).find? p.1 = some ⟨p.2.dataType, p.2.dims, b⟩ := by
  induction ks generalizing pool with
  | nil => cases hp
  | cons q ks ih =>
    obtain ⟨hq, hks⟩ := nodup_cons.mp hnodup
    rw [foldl_cons]
    rcases mem_cons.mp hp with rfl | hp
    · rw [find?_poolSteps_of_not_mem]
      · rw [poolStep, hb, SortedMap.find?_insert, if_pos rfl]
      · intro r hr _ he
        exact hq (he ▸ List.mem_map_of_mem hr)
    · exact ih hks hp _

theorem find?_poolSteps_none :
    (ks.foldl poolStep pool).find? k = none ↔
      pool.find? k = none ∧ ∀ p ∈ ks, adoptable p.2 ≠ none → p.1 ≠ k := by
  constructor
  · intro h
    induction ks generalizing pool with
    | nil => exact ⟨h, by simp⟩
    | cons p ks ih =>
      obtain ⟨hpool, hks⟩ := ih h
      rw [poolStep] at hpool
      cases ha : adoptable p.2 with
      | none =>
        rw [ha] at hpool
        exact ⟨hpool, forall_mem_cons.mpr ⟨fun hn => absurd ha hn, hks⟩⟩
      | some b =>
        simp only [ha, SortedMap.find?_insert] at hpool
        by_cases hk : k = p.1
        · rw [if_pos hk] at hpool
          cases hpool
        · rw [if_neg hk] at hpool
          exact ⟨hpool, forall_mem_cons.mpr ⟨fun _ => Ne.symm hk, hks⟩⟩
  · rintro ⟨hpool, hks⟩
    rw [find?_poolSteps_of_not_mem hks, hpool]

variable {key : Nat → TensorProto → ByteString} {ts : List TensorProto} {i : Nat}

theorem mem_keyed (h : t ∈ ts) : ∃ j, (key j t, t) ∈ keyed key i ts := by
  induction ts generalizing i with
  | nil => cases h
  | cons u ts ih =>
    rcases mem_cons.mp h with rfl | h
    · exact ⟨i, mem_cons_self⟩
    · obtain ⟨j, hj⟩ := ih (i := i + 1) h
      exact ⟨j, mem_cons_of_mem _ hj⟩

theorem keyed_mem (h : p ∈ keyed key i ts) : p.2 ∈ ts ∧ ∃ j, p.1 = key j p.2 := by
  induction ts generalizing i with
  | nil => cases h
  | cons u ts ih =>
    rcases mem_cons.mp h with rfl | h
    · exact ⟨mem_cons_self, i, rfl⟩
    · obtain ⟨hmem, hkey⟩ := ih h
      exact ⟨mem_cons_of_mem _ hmem, hkey⟩

theorem initializerKey_of_named (h : t.name ≠ []) (i : Nat) : initializerKey i t = t.name := if_neg h

theorem initializerKey_ne_nil (i : Nat) (t : TensorProto) : initializerKey i t ≠ [] := by
  rw [initializerKey]
  split
  · exact fun h => absurd (append_eq_nil_iff.mp h).1 (by decide)
  · next h => exact h

theorem initializerKey_ne_reserved (h : t.name ≠ kEmbeddedModelKey) (i : Nat) :
    initializerKey i t ≠ kEmbeddedModelKey := by
  rw [initializerKey]
  split
  · intro he
    have hhead := congrArg List.head? he
    rw [head?_append_of_ne_nil _ (by decide)] at hhead
    exact absurd hhead (by decide)
  · exact h

theorem visited_eq (g : GraphProto) :
    visited g = keyed initializerKey 0 g.initializer ++ nested g := by
  cases g
  rw [visited]
  rfl

end

section

def SameBytes (t t' : TensorProto) : Prop :=
  t'.dataLocation = t.dataLocation ∧ t'.rawData = t.rawData ∧ t'.typedData = t.typedData

def embeddedModel (archivePath : ByteString) (m : ModelProto) : ModelProto :=
  { m with graph := mapTensors (externalize archivePath) m.graph }

variable (serialize : ModelProto → Option ByteString) (parse : ByteString → Option ModelProto)
  (archivePath : ByteString) (prior : TensorPool) (m : ModelProto)

/-- Embedding a model and extracting it again gives back every tensor's bytes, and every tensor has a
key of its own. -/
def RoundTrips : Prop :=
  (∃ m' pool m'', embedModel serialize m archivePath prior = .ok (m', pool) ∧
    extractModel parse pool true = .ok (some m'') ∧
    List.Forall₂ SameBytes (tensorsOf (visited m.graph)) (tensorsOf (visited m''.graph))) ∧
  ((visited m.graph).map Prod.fst).Nodup

/-- What the pool holds under the name of a tensor that is not moved into it. -/
def heldUnder (name : ByteString) : Option ByteString :=
  if name = kEmbeddedModelKey then serialize (embeddedModel archivePath m)
  else (prior.find? name).map Entry.data

/-- Only named top-level initializers have bytes to move, under keys of their own that are not the
model's, and no other initializer finds something under its name. -/
structure Keeps : Prop where
  keys : ((visited m.graph).map Prod.fst).Nodup
  nested : ∀ p ∈ nested m.graph, adoptable p.2 = none
  named : ∀ t ∈ m.graph.initializer, ∀ b, adoptable t = some b →
    t.name ≠ [] ∨ (prior.find? []).map Entry.data = some b
  reserved : prior.find? kEmbeddedModelKey = none ∧
    ∀ t ∈ m.graph.initializer, adoptable t ≠ none → t.name ≠ kEmbeddedModelKey
  others : ∀ t ∈ m.graph.initializer, adoptable t = none →
    ∀ b, heldUnder serialize archivePath prior m t.name = some b →
      t.dataLocation = .default ∧ t.rawData = some b

variable {serialize parse archivePath prior m}

theorem embedModel_eq (hblob : serialize (embeddedModel archivePath m) = some blob) :
    embedModel serialize m archivePath prior =
      if (((visited m.graph).foldl poolStep prior).find? kEmbeddedModelKey).isSome then
        .error ("TensorPool: a tensor is already named '" ++ textOf kEmbeddedModelKey ++
          "', which collides with the reserved key this archive format " ++
          "embeds the graph itself under; rename that tensor before " ++ "embedding")
      else .ok (embeddedModel archivePath m, ((visited m.graph).foldl poolStep prior).insert
        kEmbeddedModelKey ⟨onnxInt8, [Int64.ofNat blob.length], blob⟩) := by
  rw [embeddedModel] at hblob
  rw [embedModel, forEachTensor_eq (embedTensor_eq archivePath)]
  simp only [hblob]
  rfl

def archivePool (prior : TensorPool) (m : ModelProto) (blob : ByteString) : TensorPool :=
  ((visited m.graph).foldl poolStep prior).insert kEmbeddedModelKey
    ⟨onnxInt8, [Int64.ofNat blob.length], blob⟩

def extracted (archivePath : ByteString) (pool : TensorPool) (m : ModelProto) : ModelProto :=
  ⟨hydrateGraph pool (mapTensors (externalize archivePath) m.graph), m.other⟩

theorem extractModel_archivePool (hparse : parse blob = some (embeddedModel archivePath m)) :
    extractModel parse (archivePool prior m blob) true =
      .ok (some (extracted archivePath (archivePool prior m blob) m)) := by
  have hfind : (archivePool prior m blob).find? kEmbeddedModelKey =
      some ⟨onnxInt8, [Int64.ofNat blob.length], blob⟩ := by
    rw [archivePool, SortedMap.find?_insert, if_pos rfl]
  rw [extractModel, hfind]
  simp only [hparse]
  rfl

def restored (archivePath : ByteString) (pool : TensorPool) (t : TensorProto) : TensorProto :=
  hydrateTensorProto t.name (externalize archivePath t) pool

theorem tensorsOf_extracted (pool : TensorPool) (m : ModelProto) :
    tensorsOf (visited (extracted archivePath pool m).graph) =
      m.graph.initializer.map (restored archivePath pool) ++
        (tensorsOf (nested m.graph)).map (externalize archivePath) := by
  obtain ⟨g, other⟩ := m
  cases g with
  | mk initializer node other =>
    rw [extracted, mapTensors, hydrateGraph, visited, tensorsOf_append, tensorsOf_keyed,
      tensorsOf_mapNodes _ 0 0 node, List.map_map]
    congr 1
    apply map_congr_left
    intro t _
    rw [Function.comp_apply, externalize_name, restored]

theorem forall₂_append_map {α β : Type} {R : α → β → Prop} {f g : α → β} {l₁ l₂ : List α} :
    List.Forall₂ R (l₁ ++ l₂) (l₁.map f ++ l₂.map g) ↔
      (∀ a ∈ l₁, R a (f a)) ∧ ∀ a ∈ l₂, R a (g a) := by
  have hmap : ∀ (h : α → β) (l : List α), List.Forall₂ R l (l.map h) ↔ ∀ a ∈ l, R a (h a) := by
    intro h l
    rw [forall₂_map_right_iff, forall₂_same]
  induction l₁ with
  | nil => simp [hmap]
  | cons a l₁ ih => simp [ih, and_assoc]

theorem sameBytes_externalize : SameBytes t (externalize archivePath t) ↔ adoptable t = none := by
  constructor
  · intro h
    cases ha : adoptable t with
    | none => rfl
    | some b =>
      have hraw := h.2.1
      rw [externalize, ha, (adoptable_eq_some ha).2] at hraw
      cases hraw
  · intro h
    rw [externalize_of_none h]
    exact ⟨rfl, rfl, rfl⟩

theorem typedData_externalize (t : TensorProto) :
    (externalize archivePath t).typedData = t.typedData := by
  rw [externalize]
  cases adoptable t <;> rfl

/-- An initializer comes back with its bytes where the pool holds them under its name, or where it was
left alone and the pool holds nothing. -/
theorem sameBytes_restored : SameBytes t (restored archivePath pool t) ↔ match pool.find? t.name with 
      | none => adoptable t = none
      | some e => t.dataLocation = .default ∧ t.rawData = some e.data := by
  rw [restored, hydrateTensorProto]
  cases pool.find? t.name with
  | none => exact sameBytes_externalize
  | some e =>
    constructor
    · intro h
      exact ⟨h.1.symm, h.2.1.symm⟩
    · intro h
      exact ⟨h.1.symm, h.2.symm, typedData_externalize t⟩

theorem roundTrips_iff_restored (hblob : serialize (embeddedModel archivePath m) = some blob)
    (hparse : parse blob = some (embeddedModel archivePath m)) :
    RoundTrips serialize parse archivePath prior m ↔
      ((visited m.graph).map Prod.fst).Nodup ∧
      ((visited m.graph).foldl poolStep prior).find? kEmbeddedModelKey = none ∧
      (∀ t ∈ m.graph.initializer, SameBytes t (restored archivePath (archivePool prior m blob) t)) ∧
      ∀ p ∈ nested m.graph, adoptable p.2 = none := by
  have htensors : tensorsOf (visited m.graph) = m.graph.initializer ++ tensorsOf (nested m.graph) := by
    rw [visited_eq, tensorsOf_append, tensorsOf_keyed]
  have hnested : (∀ t ∈ tensorsOf (nested m.graph), SameBytes t (externalize archivePath t)) ↔
      ∀ p ∈ nested m.graph, adoptable p.2 = none := by
    simp only [sameBytes_externalize, tensorsOf, List.forall_mem_map]
  rw [RoundTrips, embedModel_eq hblob]
  constructor
  · rintro ⟨⟨m', pool, m'', hembed, hextract, hsame⟩, hkeys⟩
    split at hembed
    · cases hembed
    · next hnone =>
      cases hembed
      have hpool : extractModel parse (archivePool prior m blob) true = _ :=
        extractModel_archivePool hparse
      rw [archivePool] at hpool
      rw [hpool] at hextract
      cases hextract
      rw [tensorsOf_extracted, htensors, forall₂_append_map, hnested] at hsame
      exact ⟨hkeys, by simpa using hnone, hsame⟩
  · rintro ⟨hkeys, hnone, hsame⟩
    refine ⟨⟨_, _, _, if_neg (by simp [hnone]), extractModel_archivePool hparse, ?_⟩, hkeys⟩
    rw [tensorsOf_extracted, htensors, forall₂_append_map, hnested]
    exact hsame

end

variable {serialize : ModelProto → Option ByteString} {archivePath : ByteString} {prior : TensorPool}
  {m : ModelProto}

theorem adopted_key (hnested : ∀ p ∈ nested m.graph, adoptable p.2 = none) (hp : p ∈ visited m.graph)
    (ha : adoptable p.2 ≠ none) :
    p.2 ∈ m.graph.initializer ∧ ∃ i, p.1 = initializerKey i p.2 := by
  rw [visited_eq] at hp
  rcases mem_append.mp hp with hp | hp
  · exact keyed_mem hp
  · exact absurd (hnested p hp) ha

theorem exists_key (h : t ∈ m.graph.initializer) : ∃ i, (initializerKey i t, t) ∈ visited m.graph := by
  obtain ⟨i, hi⟩ : ∃ i, (initializerKey i t, t) ∈ keyed initializerKey 0 m.graph.initializer :=
    mem_keyed h
  rw [visited_eq]
  exact ⟨i, mem_append_left _ hi⟩

theorem find?_empty_key (hnested : ∀ p ∈ nested m.graph, adoptable p.2 = none) :
    ((visited m.graph).foldl poolStep prior).find? [] = prior.find? [] := by
  apply find?_poolSteps_of_not_mem
  intro p hp ha he
  obtain ⟨-, i, hi⟩ := adopted_key hnested hp ha
  exact initializerKey_ne_nil i p.2 (hi ▸ he)

theorem find?_of_adopted (hkeys : ((visited m.graph).map Prod.fst).Nodup) (ht : t ∈ m.graph.initializer)
    (hname : t.name ≠ []) (hb : adoptable t = some b) :
    ((visited m.graph).foldl poolStep prior).find? t.name = some ⟨t.dataType, t.dims, b⟩ := by
  obtain ⟨i, hi⟩ := exists_key ht
  have hfind := find?_poolSteps_of_mem hkeys hi hb prior
  rwa [initializerKey_of_named hname] at hfind

theorem find?_of_not_adopted (hkeys : ((visited m.graph).map Prod.fst).Nodup)
    (hnested : ∀ p ∈ nested m.graph, adoptable p.2 = none) (ht : t ∈ m.graph.initializer) (ha : adoptable t = none) :
    ((visited m.graph).foldl poolStep prior).find? t.name = prior.find? t.name := by
  by_cases hname : t.name = []
  · rw [hname]
    exact find?_empty_key hnested
  · apply find?_poolSteps_of_not_mem
    intro p hp hpa he
    obtain ⟨i, hi⟩ := exists_key ht
    rw [initializerKey_of_named hname, ← he] at hi
    have hsame : p = (p.1, t) := inj_on_of_nodup_map hkeys hp hi rfl
    rw [hsame] at hpa
    exact hpa ha

theorem find?_archivePool {name : ByteString} (h : name ≠ kEmbeddedModelKey) :
    (archivePool prior m blob).find? name =
      ((visited m.graph).foldl poolStep prior).find? name := by
  rw [archivePool, SortedMap.find?_insert, if_neg h]

theorem held_of_not_adopted (hblob : serialize (embeddedModel archivePath m) = some blob)
    (hkeys : ((visited m.graph).map Prod.fst).Nodup) (hnested : ∀ p ∈ nested m.graph, adoptable p.2 = none)
    (ht : t ∈ m.graph.initializer) (ha : adoptable t = none) :
    ((archivePool prior m blob).find? t.name).map Entry.data =
      heldUnder serialize archivePath prior m t.name := by
  rw [heldUnder]
  by_cases hname : t.name = kEmbeddedModelKey
  · rw [if_pos hname, hblob, hname, archivePool, SortedMap.find?_insert, if_pos rfl]
    rfl
  · rw [if_neg hname, find?_archivePool hname, find?_of_not_adopted hkeys hnested ht ha]

/-- `ExtractModel` undoes `EmbedModel` exactly where every tensor with bytes to move is a named top-level
initializer with a key of its own. -/
theorem roundTrips_iff_keeps {parse : ByteString → Option ModelProto}
    (hcodec : ∃ blob, serialize (embeddedModel archivePath m) = some blob ∧
      parse blob = some (embeddedModel archivePath m)) :
    RoundTrips serialize parse archivePath prior m ↔ Keeps serialize archivePath prior m := by
  obtain ⟨blob, hblob, hparse⟩ := hcodec
  rw [roundTrips_iff_restored hblob hparse, find?_poolSteps_none]
  constructor
  · rintro ⟨hkeys, ⟨hprior, hkeysne⟩, hsame, hnested⟩
    refine ⟨hkeys, hnested, fun t ht b hb => ?_, ⟨hprior, fun t ht ha hname => ?_⟩,
      fun t ht ha b hb => ?_⟩
    · by_cases hname : t.name = []
      · have hrestored := sameBytes_restored.mp (hsame t ht)
        have hother : ([] : ByteString) ≠ kEmbeddedModelKey := by decide
        rw [hname, find?_archivePool hother, find?_empty_key hnested] at hrestored
        refine .inr ?_
        cases hfind : prior.find? [] with
        | none =>
          rw [hfind, hb] at hrestored
          cases hrestored
        | some e =>
          rw [hfind, (adoptable_eq_some hb).2] at hrestored
          exact hrestored.2.symm
      · exact .inl hname
    · obtain ⟨i, hi⟩ := exists_key ht
      have hnamed : t.name ≠ [] := by
        rw [hname]
        decide
      exact hkeysne _ hi ha ((initializerKey_of_named hnamed i).trans hname)
    · have hrestored := sameBytes_restored.mp (hsame t ht)
      rw [← held_of_not_adopted hblob hkeys hnested ht ha] at hb
      obtain ⟨e, he, rfl⟩ := map_eq_some_iff.mp hb
      rw [he] at hrestored
      exact hrestored
  · intro h
    refine ⟨h.keys, ⟨h.reserved.1, fun p hp ha => ?_⟩, fun t ht => sameBytes_restored.mpr ?_, h.nested⟩
    · obtain ⟨hmem, i, hi⟩ := adopted_key h.nested hp ha
      rw [hi]
      exact initializerKey_ne_reserved (h.reserved.2 p.2 hmem ha) i
    · cases ha : adoptable t with
      | none =>
        have hheld : ((archivePool prior m blob).find? t.name).map Entry.data = _ :=
          held_of_not_adopted hblob h.keys h.nested ht ha
        cases hfind : (archivePool prior m blob).find? t.name with
        | none => rfl
        | some e =>
          rw [hfind] at hheld
          exact h.others t ht ha e.data hheld.symm
      | some b =>
        have hne : adoptable t ≠ none := by
          rw [ha]
          exact some_ne_none b
        have hbytes := adoptable_eq_some ha
        rw [find?_archivePool (h.reserved.2 t ht hne)]
        by_cases hname : t.name = []
        · have hheld := (h.named t ht b ha).resolve_left (not_not.mpr hname)
          rw [hname, find?_empty_key h.nested]
          cases hfind : prior.find? [] with
          | none =>
            rw [hfind] at hheld
            cases hheld
          | some e =>
            rw [hfind] at hheld
            exact ⟨hbytes.1, hbytes.2.trans hheld.symm⟩
        · rw [find?_of_adopted h.keys ht hname ha]
          exact hbytes

def weight (name : ByteString) : TensorProto :=
  ⟨name, 2, [1], some [7], [], .default, []⟩

def weightModel : ModelProto := ⟨.mk [weight (ascii "w")] [] [], []⟩

/-- The protobuf encoding of that model once its byte is in the archive `a`. -/
def weightBlob : ByteString :=
  [58, 26, 42, 24, 8, 1, 16, 2, 66, 1, 119, 106, 13, 10, 8, 108, 111, 99, 97, 116, 105, 111, 110, 18,
   1, 97, 112, 1]

def parseWeight (blob : ByteString) : Option ModelProto :=
  if blob = weightBlob then some (embeddedModel (ascii "a") weightModel) else none

theorem roundTrips_weight :
    (∃ blob, (fun _ => some weightBlob) (embeddedModel (ascii "a") weightModel) = some blob ∧
      parseWeight blob = some (embeddedModel (ascii "a") weightModel)) ∧
    RoundTrips (fun _ => some weightBlob) parseWeight (ascii "a") .empty weightModel := by
  have hcodec : ∃ blob, (fun _ => some weightBlob) (embeddedModel (ascii "a") weightModel) =
      some blob ∧ parseWeight blob = some (embeddedModel (ascii "a") weightModel) :=
    ⟨weightBlob, rfl, if_pos rfl⟩
  refine ⟨hcodec, (roundTrips_iff_keeps hcodec).mpr ⟨by decide, by decide, ?_, ⟨rfl, ?_⟩, ?_⟩⟩
  · intro t ht b _
    rw [mem_singleton.mp ht]
    exact .inl (by decide)
  · intro t ht _
    rw [mem_singleton.mp ht]
    decide
  · intro t ht ha
    rw [mem_singleton.mp ht] at ha
    exact absurd ha (by decide)

/-- A `Constant` node, whose tensor has no name. -/
def constantModel : ModelProto :=
  ⟨.mk [] [.mk (ascii "n") [.mk (some (weight [])) [] none [] (ascii "value")] (ascii "Constant")] [], []⟩

def constantBlob : ByteString :=
  [58, 53, 10, 51, 18, 1, 99, 26, 1, 110, 34, 8, 67, 111, 110, 115, 116, 97, 110, 116, 42, 33, 10, 5,
   118, 97, 108, 117, 101, 42, 21, 8, 1, 16, 2, 106, 13, 10, 8, 108, 111, 99, 97, 116, 105, 111, 110,
   18, 1, 97, 112, 1, 160, 1, 4]

def parseConstant (blob : ByteString) : Option ModelProto :=
  if blob = constantBlob then some (embeddedModel (ascii "a") constantModel) else none

/-- Its byte goes into the pool and is not put back. -/
theorem constant_not_restored :
    ¬ RoundTrips (fun _ => some constantBlob) parseConstant (ascii "a") .empty constantModel := by
  intro h
  have hparse : parseConstant constantBlob = some (embeddedModel (ascii "a") constantModel) := if_pos rfl
  obtain ⟨-, -, -, hnested⟩ := (roundTrips_iff_restored rfl hparse).mp h
  exact absurd (hnested _ mem_cons_self) (by decide)

end Onnxsim.Storage.ArchiveTrip
