import Mathlib.Data.List.GetD
import Mathlib.Data.List.TakeWhile
import Onnxsim.Storage.StandaloneSound

namespace Onnxsim.Storage.ExternalLoads

open List Lib.Bytes Lib.OrderedMaps Pool Archive
open HeaderParser (isSpace)
open Standalone (record)
open StandaloneSound (tensors_forEach threaded)
open Traversal

/-- `std::stoull`, which passes over what follows the digits and throws without any. -/
def stoull (s : ByteString) : Except String Nat :=
  let s := s.dropWhile isSpace
  let digits := (if s.head? = some 45 ∨ s.head? = some 43 then s.tail else s).takeWhile isDigit
  if digits = [] ∨ 2 ^ 64 ≤ digitsValue digits then .error "stoull"
  else .ok (if s.head? = some 45 then (2 ^ 64 - digitsValue digits) % 2 ^ 64 else digitsValue digits)

def externalDataValue (t : TensorProto) (key : String) : ByteString := (record t key).getD []

def isSlash (b : Byte) : Bool := b = 47 || b = 92

def resolveExternalDataPath (baseDir location : ByteString) : ByteString :=
  if location.head?.any isSlash ∨ location[1]? = some 58 ∨ baseDir = [] then location
  else if baseDir.getLast?.any isSlash then baseDir ++ location
  else baseDir ++ 47 :: location

/-- What comes before the last separator of a path, or nothing. -/
def baseDirOf (onnxPath : ByteString) : ByteString := (onnxPath.reverse.dropWhile fun b => !isSlash b).tail.reverse

/-- The files that can be read, those of them that `TryMmapFile` maps, and the process's memory around a mapping,
by 64-bit distance from its start. -/
structure Files where
  contents : ByteString → Option ByteString
  size_lt : ∀ path file, contents path = some file → file.length < maxFileSize
  mapped : ByteString → Bool
  memory : Nat → Byte

def Files.unmapped (fs : Files) : Files := { fs with mapped := fun _ => false }

def viewBytes (memory : Nat → Byte) (file : ByteString) (offset length : Nat) : ByteString :=
  (List.range length).map fun i => file.getD ((offset + i) % 2 ^ 64) (memory ((offset + i) % 2 ^ 64))

/-- A seek and a read of a string that starts as zeros; a seek before the file fails, and so does the read. -/
def readBytes (file : ByteString) (offset length : Nat) : ByteString :=
  let got := if offset < 2 ^ 63 then (file.drop offset).take length else []
  got ++ List.replicate (length - got.length) 0

def offsetOf (t : TensorProto) : Except String Nat :=
  if externalDataValue t "offset" = [] then .ok 0 else stoull (externalDataValue t "offset")

/-- The length of a record that has none, as the stream's signed positions give it. -/
def restLength (size offset : Nat) : Nat :=
  if offset < 2 ^ 63 then size - offset else (size + 2 ^ 64 - offset) % 2 ^ 64

/-- The bytes that a tensor gets, `none` where it is left alone. -/
def resolve (fs : Files) (baseDir : ByteString) (t : TensorProto) : Except String (Option ByteString) :=
  let path := resolveExternalDataPath baseDir (externalDataValue t "location")
  let lengthStr := externalDataValue t "length"
  if t.dataLocation ≠ .external ∨ externalDataValue t "location" = [] then .ok none
  else
    match offsetOf t, fs.contents path with
    | .error e, _ => .error e
    | .ok _, none => .ok none
    | .ok offset, some file =>
      if fs.mapped path then
        match if lengthStr = [] then .ok (file.length - offset) else stoull lengthStr with
        | .error e => .error e
        | .ok length =>
          if file.length < (offset + length) % 2 ^ 64 then .ok none
          else .ok (some (viewBytes fs.memory file offset length))
      else
        match if lengthStr = [] then .ok (restLength file.length offset) else stoull lengthStr with
        | .error e => .error e
        | .ok length =>
          if 2 ^ 63 ≤ length then .error "basic_string: construction from a length that is too long"
          else .ok (some (readBytes file offset length))

structure Loaded where
  pool : TensorPool
  loaded : Nat

/-- The callback of `LoadModelWithTensorPool`; once something is thrown no more tensors are visited. -/
def loadTensor (fs : Files) (baseDir : ByteString) (hydrateAll : Bool) (name : ByteString) (t : TensorProto) :
    Except String Loaded → TensorProto × Except String Loaded
  | .error e => (t, .error e)
  | .ok s =>
    match resolve fs baseDir t with
    | .error e => (t, .error e)
    | .ok none => (t, .ok s)
    | .ok (some bytes) =>
      let pool := s.pool.insert name ⟨t.dataType, t.dims, bytes⟩
      (if hydrateAll then hydrateTensorProto name t pool else t, .ok ⟨pool, s.loaded + 1⟩)

/-- `LoadModelWithTensorPool` on the model that it has parsed from `onnxPath`. -/
def loadModelWithTensorPool (fs : Files) (onnxPath : ByteString) (m : ModelProto) (pool : TensorPool)
    (hydrateAll : Bool) : ModelProto × Except String Loaded :=
  let r := forEachTensor (loadTensor fs (baseDirOf onnxPath) hydrateAll) m.graph (.ok ⟨pool, 0⟩)
  (⟨r.1, m.other⟩, r.2)

def plain (s : ByteString) : Option Nat :=
  if s ≠ [] ∧ s.all isDigit ∧ digitsValue s < 2 ^ 64 then some (digitsValue s) else none

/-- The bytes that a well-formed record names inside its file. -/
def wanted (file : ByteString) (t : TensorProto) : Option ByteString :=
  (if externalDataValue t "offset" = [] then some 0 else plain (externalDataValue t "offset")).bind fun offset =>
    (if externalDataValue t "length" = [] then some (file.length - offset) else plain (externalDataValue t "length")).bind
      fun length => if offset + length ≤ file.length then some ((file.drop offset).take length) else none

/-- The file that an external tensor is read from, if there is one. -/
def fileOf (fs : Files) (baseDir : ByteString) (t : TensorProto) : Option ByteString :=
  if t.dataLocation ≠ .external ∨ externalDataValue t "location" = [] then none
  else fs.contents (resolveExternalDataPath baseDir (externalDataValue t "location"))

def target (fs : Files) (baseDir : ByteString) (t : TensorProto) : Option ByteString :=
  (fileOf fs baseDir t).bind fun file => wanted file t

def hydrated (hydrateAll : Bool) (bytes : Option ByteString) (t : TensorProto) : TensorProto :=
  match bytes with
  | none => t
  | some bytes =>
    if hydrateAll then { t with dataLocation := .default, externalData := [], rawData := some bytes } else t

/-- The load ends; it has resolved as many tensors as have well-formed records inside their files, each of these
has its own bytes, in the model or in the pool, every other tensor is what it was, and without any mapping all
comes out the same. -/
structure Faithful (fs : Files) (onnxPath : ByteString) (m : ModelProto) (pool : TensorPool) (hydrateAll : Bool) :
    Prop where
  ends : ∃ s, (loadModelWithTensorPool fs onnxPath m pool hydrateAll).2 = .ok s ∧
    s.loaded = (visited m.graph).countP (fun p => (target fs (baseDirOf onnxPath) p.2).isSome) ∧
    ∀ p ∈ visited m.graph, ∀ bytes, target fs (baseDirOf onnxPath) p.2 = some bytes →
      (s.pool.find? p.1).map Entry.data = some bytes
  tensors : tensorsOf (visited (loadModelWithTensorPool fs onnxPath m pool hydrateAll).1.graph) =
    (tensorsOf (visited m.graph)).map fun t => hydrated hydrateAll (target fs (baseDirOf onnxPath) t) t
  unmapped : (loadModelWithTensorPool fs.unmapped onnxPath m pool hydrateAll).2 =
      (loadModelWithTensorPool fs onnxPath m pool hydrateAll).2 ∧
    tensorsOf (visited (loadModelWithTensorPool fs.unmapped onnxPath m pool hydrateAll).1.graph) =
      tensorsOf (visited (loadModelWithTensorPool fs onnxPath m pool hydrateAll).1.graph)

/-- Every record of a file that is there is well formed and inside it, `stoull` reads the offset of a file that is
not, and tensors under one key have the same bytes. -/
structure InRange (fs : Files) (baseDir : ByteString) (ks : List Keyed) : Prop where
  records : ∀ p ∈ ks, ∀ file, fileOf fs baseDir p.2 = some file → (wanted file p.2).isSome
  offsets : ∀ p ∈ ks, p.2.dataLocation = .external → externalDataValue p.2 "location" ≠ [] →
    fileOf fs baseDir p.2 = none → ∃ offset, offsetOf p.2 = .ok offset
  keys : ∀ p ∈ ks, ∀ q ∈ ks, p.1 = q.1 → ∀ b c, target fs baseDir p.2 = some b → target fs baseDir q.2 = some c → b = c

variable {bytes : ByteString} {r : Option ByteString} {τ : TensorProto → Option ByteString}

section

variable {fs : Files} {baseDir : ByteString} {t : TensorProto} {file : ByteString}

theorem stoull_of_plain {s : ByteString} {v : Nat} (h : plain s = some v) : stoull s = .ok v := by
  rw [plain] at h
  split at h
  · next hplain =>
    obtain ⟨hne, hall, hlt⟩ := hplain
    cases h
    obtain ⟨c, cs, rfl⟩ := exists_cons_of_ne_nil hne
    have hc : isDigit c = true := List.all_eq_true.mp hall c mem_cons_self
    have hval : 48 ≤ c.val ∧ c.val ≤ 57 := by simpa [isDigit] using hc
    have hspace : isSpace c = false := by
      rw [← Bool.not_eq_true]
      intro hs
      simp only [isSpace, Bool.or_eq_true, decide_eq_true_eq, Bool.and_eq_true] at hs
      obtain rfl | hs := hs
      · exact absurd hval.1 (by decide)
      · omega
    have hminus : c ≠ 45 := fun he => absurd (he ▸ hval.1) (by decide)
    have hplus : c ≠ 43 := fun he => absurd (he ▸ hval.1) (by decide)
    have htake : (c :: cs).takeWhile isDigit = c :: cs := takeWhile_eq_self_iff.mpr (List.all_eq_true.mp hall)
    simp only [stoull, dropWhile_cons, hspace, Bool.false_eq_true, if_false, head?_cons, Option.some.injEq,
      hminus, hplus, or_self, htake, cons_ne_nil, Nat.not_le.mpr hlt]
  · cases h

theorem viewBytes_eq {memory : Nat → Byte} {offset length : Nat} (h : offset + length ≤ file.length)
    (hlen : file.length < maxFileSize) : viewBytes memory file offset length = (file.drop offset).take length := by
  rw [maxFileSize] at hlen
  apply ext_getElem (by simp [viewBytes]; omega)
  intro i h₁ h₂
  have hi : i < length := by simpa [viewBytes] using h₁
  simp only [viewBytes, getElem_map, getElem_range, getElem_take, getElem_drop]
  rw [Nat.mod_eq_of_lt (by omega), getD_eq_getElem _ _ (by omega)]

theorem readBytes_eq {offset length : Nat} (h : offset + length ≤ file.length) (hlen : file.length < maxFileSize) :
    readBytes file offset length = (file.drop offset).take length := by
  rw [maxFileSize] at hlen
  have hgot : ((file.drop offset).take length).length = length := by simp; omega
  simp only [readBytes]
  rw [if_pos (by omega), hgot, Nat.sub_self, replicate_zero, append_nil]

theorem resolve_of_wanted (hfile : fileOf fs baseDir t = some file) (hwanted : wanted file t = some bytes) :
    resolve fs baseDir t = .ok (some bytes) := by
  rw [fileOf] at hfile
  split at hfile
  · cases hfile
  · next hext =>
    have hlen := fs.size_lt _ _ hfile
    rw [wanted] at hwanted
    obtain ⟨offset, hoffset, hwanted⟩ := Option.bind_eq_some_iff.mp hwanted
    obtain ⟨length, hlength, hwanted⟩ := Option.bind_eq_some_iff.mp hwanted
    split at hwanted
    · next hle =>
      cases hwanted
      have hparsed : offsetOf t = .ok offset := by
        rw [offsetOf]
        split at hoffset
        · next h => rw [if_pos h]; cases hoffset; rfl
        · next h => rw [if_neg h]; exact stoull_of_plain hoffset
      have hlt : (offset + length) % 2 ^ 64 = offset + length := by
        rw [maxFileSize] at hlen
        exact Nat.mod_eq_of_lt (by omega)
      have hlengths : ∀ rest : Nat, rest = file.length - offset →
          (if externalDataValue t "length" = [] then .ok rest else stoull (externalDataValue t "length")) =
            (.ok length : Except String Nat) := by
        rintro rest rfl
        split at hlength
        · next h => rw [if_pos h]; cases hlength; rfl
        · next h => rw [if_neg h]; exact stoull_of_plain hlength
      have hrest : restLength file.length offset = file.length - offset := by
        rw [maxFileSize] at hlen
        rw [restLength, if_pos (by omega)]
      simp only [resolve, if_neg hext, hparsed, hfile]
      by_cases hmapped : fs.mapped (resolveExternalDataPath baseDir (externalDataValue t "location")) = true
      · simp only [hmapped, if_true, hlengths _ rfl]
        rw [hlt, if_neg (Nat.not_lt.mpr hle), viewBytes_eq hle hlen]
      · simp only [hmapped, if_false, hlengths _ hrest, Bool.false_eq_true]
        rw [if_neg (by rw [maxFileSize] at hlen; omega), readBytes_eq hle hlen]
    · cases hwanted

theorem resolve_of_missing (hfile : fileOf fs baseDir t = none) (hoffset : t.dataLocation = .external →
    externalDataValue t "location" ≠ [] → ∃ offset, offsetOf t = .ok offset) : resolve fs baseDir t = .ok none := by
  rw [fileOf] at hfile
  simp only [resolve]
  split at hfile
  · next hext => rw [if_pos hext]
  · next hext =>
    rw [not_or, not_not] at hext
    obtain ⟨offset, hoffset⟩ := hoffset hext.1 hext.2
    rw [if_neg (by simp [hext]), hoffset, hfile]

theorem offset_of_resolve (h : resolve fs baseDir t = .ok r) (hext : t.dataLocation = .external)
    (hlocation : externalDataValue t "location" ≠ []) : ∃ offset, offsetOf t = .ok offset := by
  simp only [resolve] at h
  rw [if_neg (by simp [hext, hlocation])] at h
  cases ho : offsetOf t with
  | ok offset => exact ⟨offset, rfl⟩
  | error e =>
    rw [ho] at h
    cases h

theorem isSome_of_unmapped (hfile : fileOf fs baseDir t = some file) (h : resolve fs.unmapped baseDir t = .ok r) :
    r.isSome = true := by
  rw [fileOf] at hfile
  split at hfile
  · cases hfile
  · next hext =>
    simp only [resolve, Files.unmapped, if_neg hext, hfile, Bool.false_eq_true, if_false] at h
    split at h
    · cases h
    · next heq => cases heq
    · split at h
      · cases h
      · split at h
        · cases h
        · cases h
          rfl

end

section

variable {fs : Files} {baseDir : ByteString} {hydrateAll : Bool} {ks : List Keyed}

def loadStep (s : Loaded) (p : Keyed) (bytes : Option ByteString) : Loaded :=
  match bytes with
  | none => s
  | some bytes => ⟨s.pool.insert p.1 ⟨p.2.dataType, p.2.dims, bytes⟩, s.loaded + 1⟩

theorem loadTensor_of_resolve {p : Keyed} (h : resolve fs baseDir p.2 = .ok r) (s : Loaded) :
    loadTensor fs baseDir hydrateAll p.1 p.2 (.ok s) = (hydrated hydrateAll r p.2, .ok (loadStep s p r)) := by
  rw [loadTensor, h]
  cases r with
  | none => rfl
  | some bytes =>
    cases hydrateAll with
    | false => rfl
    | true => simp [hydrateTensorProto, hydrated, loadStep]

theorem threaded_load (h : ∀ p ∈ ks, resolve fs baseDir p.2 = .ok (τ p.2)) (s : Loaded) :
    threaded (loadTensor fs baseDir hydrateAll) ks (.ok s) =
      (ks.map fun p => hydrated hydrateAll (τ p.2) p.2, .ok (ks.foldl (fun s p => loadStep s p (τ p.2)) s)) := by
  induction ks generalizing s with
  | nil => rfl
  | cons p ks ih =>
    rw [threaded, loadTensor_of_resolve (h p mem_cons_self), ih fun q hq => h q (mem_cons_of_mem _ hq)]
    rfl

theorem threaded_error (e : String) : (threaded (loadTensor fs baseDir hydrateAll) ks (.error e)).2 = .error e := by
  induction ks with
  | nil => rfl
  | cons p ks ih => exact ih

theorem resolves_of_ends {s s' : Loaded} (h : (threaded (loadTensor fs baseDir hydrateAll) ks (.ok s)).2 = .ok s') :
    ∀ p ∈ ks, ∃ r, resolve fs baseDir p.2 = .ok r := by
  induction ks generalizing s with
  | nil => exact fun p hp => (by cases hp)
  | cons q ks ih =>
    rw [threaded] at h
    cases hr : resolve fs baseDir q.2 with
    | error e =>
      rw [loadTensor, hr] at h
      exact absurd (h.symm.trans (threaded_error e)) (by simp)
    | ok r =>
      rw [loadTensor_of_resolve hr] at h
      intro p hp
      obtain rfl | hp := mem_cons.mp hp
      · exact ⟨r, hr⟩
      · exact ih h p hp

theorem loaded_foldl (τ : TensorProto → Option ByteString) (s : Loaded) :
    (ks.foldl (fun s p => loadStep s p (τ p.2)) s).loaded = s.loaded + ks.countP fun p => (τ p.2).isSome := by
  induction ks generalizing s with
  | nil => rfl
  | cons p ks ih =>
    rw [foldl_cons, ih, countP_cons]
    cases τ p.2 with
    | none => rfl
    | some bytes => simp only [loadStep, Option.isSome_some, if_true]; omega

theorem find?_foldl {k : ByteString} (hsame : ∀ q ∈ ks, q.1 = k → ∀ c, τ q.2 = some c → c = bytes) (s : Loaded)
    (h : (∃ p ∈ ks, p.1 = k ∧ τ p.2 = some bytes) ∨ (s.pool.find? k).map Entry.data = some bytes) :
    ((ks.foldl (fun s p => loadStep s p (τ p.2)) s).pool.find? k).map Entry.data = some bytes := by
  induction ks generalizing s with
  | nil =>
    obtain ⟨p, hp, -⟩ | h := h
    · cases hp
    · exact h
  | cons q ks ih =>
    refine ih (fun r hr => hsame r (mem_cons_of_mem _ hr)) _ ?_
    by_cases hq : q.1 = k ∧ (τ q.2).isSome = true
    · obtain ⟨c, hc⟩ := Option.isSome_iff_exists.mp hq.2
      right
      show ((loadStep s q (τ q.2)).pool.find? k).map Entry.data = some bytes
      rw [hc, loadStep, SortedMap.find?_insert, if_pos hq.1.symm, Option.map_some,
        hsame q mem_cons_self hq.1 c hc]
    · obtain ⟨p, hp, hk, hbytes⟩ | h := h
      · obtain rfl | hp := mem_cons.mp hp
        · exact absurd ⟨hk, Option.isSome_iff_exists.mpr ⟨bytes, hbytes⟩⟩ hq
        · exact .inl ⟨p, hp, hk, hbytes⟩
      · right
        show ((loadStep s q (τ q.2)).pool.find? k).map Entry.data = some bytes
        cases hc : τ q.2 with
        | none => exact h
        | some c =>
          have hne : k ≠ q.1 := fun he => hq ⟨he.symm, by rw [hc]; rfl⟩
          rw [loadStep, SortedMap.find?_insert, if_neg hne, h]

theorem of_countP_eq {α : Type} {P Q : α → Bool} {l : List α} (hsub : ∀ x ∈ l, P x = true → Q x = true)
    (heq : l.countP P = l.countP Q) : ∀ x ∈ l, Q x = true → P x = true := by
  have hfilter : (l.filter Q).filter P = l.filter P := by
    rw [filter_filter]
    exact filter_congr fun x hx => by simpa using hsub x hx
  have hsame : l.filter P = l.filter Q := by
    rw [← hfilter]
    apply filter_sublist.eq_of_length
    rw [hfilter, ← countP_eq_length_filter, ← countP_eq_length_filter, heq]
  intro x hx hQ
  exact (mem_filter.mp (hsame ▸ mem_filter.mpr ⟨hx, hQ⟩)).2

end

section

variable {fs : Files} {onnxPath : ByteString} {m : ModelProto} {pool : TensorPool} {hydrateAll : Bool}

theorem resolve_of_inRange {fs' : Files} {baseDir : ByteString} {ks : List Keyed} (h : InRange fs baseDir ks)
    (hsame : fs'.contents = fs.contents) : ∀ p ∈ ks, resolve fs' baseDir p.2 = .ok (target fs baseDir p.2) := by
  intro p hp
  have hfiles : fileOf fs' baseDir p.2 = fileOf fs baseDir p.2 := by rw [fileOf, fileOf, hsame]
  cases hfile : fileOf fs baseDir p.2 with
  | none =>
    rw [target, hfile]
    exact resolve_of_missing (hfiles.trans hfile) fun hext hlocation => h.offsets p hp hext hlocation hfile
  | some file =>
    obtain ⟨bytes, hbytes⟩ := Option.isSome_iff_exists.mp (h.records p hp file hfile)
    rw [target, hfile, Option.bind_some, hbytes]
    exact resolve_of_wanted (hfiles.trans hfile) hbytes

theorem load_eq (h : ∀ p ∈ visited m.graph, resolve fs (baseDirOf onnxPath) p.2 = .ok (τ p.2)) :
    tensorsOf (visited (loadModelWithTensorPool fs onnxPath m pool hydrateAll).1.graph) =
        (visited m.graph).map (fun p => hydrated hydrateAll (τ p.2) p.2) ∧
      (loadModelWithTensorPool fs onnxPath m pool hydrateAll).2 =
        .ok ((visited m.graph).foldl (fun s p => loadStep s p (τ p.2)) ⟨pool, 0⟩) := by
  obtain ⟨htensors, hstate⟩ := tensors_forEach (loadTensor fs (baseDirOf onnxPath) hydrateAll) m.graph (.ok ⟨pool, 0⟩)
  rw [threaded_load h] at htensors hstate
  exact ⟨htensors, hstate⟩

/-- A load is faithful exactly where every record of a file that is there is well formed and in range. -/
theorem load_faithful_iff (fs : Files) (onnxPath : ByteString) (m : ModelProto) (pool : TensorPool) (hydrateAll : Bool) :
    Faithful fs onnxPath m pool hydrateAll ↔ InRange fs (baseDirOf onnxPath) (visited m.graph) := by
  constructor
  · rintro ⟨⟨s, hends, hloaded, hpool⟩, -, hunmapped, -⟩
    have hstate := (tensors_forEach (loadTensor fs.unmapped (baseDirOf onnxPath) hydrateAll) m.graph
      (.ok ⟨pool, 0⟩)).2
    have hresolves := resolves_of_ends (hstate.symm.trans (hunmapped.trans hends))
    have hresolved : ∀ p ∈ visited m.graph, resolve fs.unmapped (baseDirOf onnxPath) p.2 =
        .ok ((resolve fs.unmapped (baseDirOf onnxPath) p.2).toOption.getD none) := by
      intro p hp
      obtain ⟨r, hr⟩ := hresolves p hp
      rw [hr]
      rfl
    have hcount := (@load_eq (fun t => (resolve fs.unmapped (baseDirOf onnxPath) t).toOption.getD none)
      fs.unmapped onnxPath m pool hydrateAll hresolved).2
    rw [hunmapped, hends] at hcount
    have hequal := @loaded_foldl (visited m.graph)
      (fun t => (resolve fs.unmapped (baseDirOf onnxPath) t).toOption.getD none) ⟨pool, 0⟩
    rw [← Except.ok.inj hcount, hloaded, Nat.zero_add] at hequal
    have hread : ∀ p ∈ visited m.graph, ∀ file, fileOf fs (baseDirOf onnxPath) p.2 = some file →
        ((resolve fs.unmapped (baseDirOf onnxPath) p.2).toOption.getD none).isSome = true := by
      intro p hp file hfile
      obtain ⟨r, hr⟩ := hresolves p hp
      rw [hr]
      exact isSome_of_unmapped hfile hr
    have hall := of_countP_eq (fun p hp htarget => (by
      obtain ⟨bytes, hbytes⟩ := Option.isSome_iff_exists.mp htarget
      obtain ⟨file, hfile, -⟩ := Option.bind_eq_some_iff.mp hbytes
      exact hread p hp file hfile)) hequal
    refine ⟨fun p hp file hfile => ?_, fun p hp hext hlocation _ => ?_, fun p hp q hq hk b c hb hc => ?_⟩
    · have hsome := hall p hp (hread p hp file hfile)
      rwa [target, hfile, Option.bind_some] at hsome
    · obtain ⟨r, hr⟩ := hresolves p hp
      exact offset_of_resolve hr hext hlocation
    · have hfound := hpool p hp b hb
      rw [hk, hpool q hq c hc] at hfound
      exact (Option.some.inj hfound).symm
  · intro h
    obtain ⟨htensors, hends⟩ := @load_eq _ fs onnxPath m pool hydrateAll (resolve_of_inRange h rfl)
    obtain ⟨htensors', hends'⟩ := @load_eq _ fs.unmapped onnxPath m pool hydrateAll
      (resolve_of_inRange h rfl)
    refine ⟨⟨_, hends, ?_, fun p hp bytes hbytes => find?_foldl (fun q hq hk c hc => ?_) _ ?_⟩, ?_,
      hends'.trans hends.symm, htensors'.trans htensors.symm⟩
    · rw [loaded_foldl, Nat.zero_add]
    · exact h.keys q hq p hp hk c bytes hc hbytes
    · exact .inl ⟨p, hp, rfl, hbytes⟩
    · rw [htensors, tensorsOf, List.map_map]
      rfl

end

/-- Sixteen bytes from eight below two to the sixty-fourth on. -/
def farTensor : TensorProto :=
  ⟨ascii "w", 2, [16], none, [], .external,
    [(ascii "location", ascii "f"), (ascii "offset", ascii "18446744073709551608"), (ascii "length", ascii "16")]⟩

def farModel : ModelProto := ⟨.mk [farTensor] [] [], []⟩

def oneFile : Files where
  contents path := if path = ascii "f" then some (List.replicate 16 7) else none
  size_lt path file h := by
    split at h
    · cases h
      decide
    · cases h
  mapped _ := true
  memory _ := 0

/-- Its record ends at eight modulo two to the sixty-fourth, and starts before the mapping. -/
theorem far_not_faithful : ¬ Faithful oneFile (ascii "m") farModel .empty true := by
  intro h
  have hwanted := ((load_faithful_iff _ _ _ _ _).mp h).records (ascii "w", farTensor) mem_cons_self
    (List.replicate 16 7) rfl
  exact absurd hwanted (by decide)

end Onnxsim.Storage.ExternalLoads
