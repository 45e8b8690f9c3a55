import Onnxsim.Storage.HeaderText

namespace Onnxsim.Storage.SafetensorsRoundTrip

open List Lib.Bytes Lib.OrderedMaps Lib.Readers Pool
open HeaderParser Safetensors HeaderReads
open DescriptorReads HeaderText

abbrev Placed := ByteString × Entry × Nat × Nat

def headerOf (t : Placed) : TensorHeader :=
  ⟨t.1, toSafetensors t.2.1.dtype, t.2.1.shape, t.2.2.1, t.2.2.2⟩

/-- What one descriptor needs to be read back as it was written. -/
structure Readable (t : Placed) : Prop where
  name : t.1 ≠ ascii "__metadata__"
  dtype : toSafetensors t.2.1.dtype ≠ []
  order : t.2.2.1 ≤ t.2.2.2
  bound : t.2.2.2 < 2 ^ 63

def descriptorOf (t : Placed) : ByteString := descriptor t.1 t.2.1 t.2.2.1 t.2.2.2

theorem descriptorOf_head (t : Placed) : ∃ s, descriptorOf t = 34 :: s := by
  simp only [descriptorOf, descriptor, append_assoc]
  exact appendJsonEscaped_head _ _

theorem reads_parseMember {t : Placed} (h : Readable t) (out : List TensorHeader) :
    Reads (parseMember t.1 out) (123 :: fields t.2.1 (Int64.ofNat t.2.2.1) (Int64.ofNat t.2.2.2))
      (out ++ [headerOf t]) Any := by
  rw [parseMember, if_neg h.name, ← append_nil (123 :: _)]
  refine (reads_parseTensorHeader t.1 t.2.1 h.dtype h.order h.bound).bind ?_ fun _ _ => trivial
  exact reads_pure _ Any

theorem reads_parseLoop (t : Placed) (ts : List Placed) (out : List TensorHeader) (fuel : Nat)
    (hfuel : ts.length < fuel) (hread : ∀ u ∈ t :: ts, Readable u) :
    Reads (parseLoop fuel out) (joinComma ((t :: ts).map descriptorOf) ++ [125])
      (out ++ (t :: ts).map headerOf) Any := by
  have ht := hread t mem_cons_self
  have hdesc := descriptor_eq t.1 t.2.1 (Nat.lt_of_le_of_lt ht.order ht.bound) ht.bound
  induction ts generalizing t out fuel with
  | nil =>
    obtain ⟨fuel, rfl⟩ := Nat.exists_eq_succ_of_ne_zero (by omega : fuel ≠ 0)
    rw [map_singleton, joinComma, descriptorOf, hdesc]
    exact reads_round (fun ys => noSpace_cons (by decide) _) (by decide)
      (reads_parseMember ht out) (reads_pure _ Any)
  | cons u ts ih =>
    obtain ⟨fuel, rfl⟩ := Nat.exists_eq_succ_of_ne_zero (by omega : fuel ≠ 0)
    have hu := hread u (by simp)
    have hrest := ih u (out ++ [headerOf t]) fuel (by simpa using hfuel)
      (fun v hv => hread v (mem_cons_of_mem _ hv)) hu
      (descriptor_eq u.1 u.2.1 (Nat.lt_of_le_of_lt hu.order hu.bound) hu.bound)
    rw [append_assoc, singleton_append] at hrest
    rw [map_cons, map_cons, joinComma_cons, append_assoc, cons_append,
      descriptorOf, hdesc]
    exact reads_round (fun ys => noSpace_cons (by decide) _) (by decide)
      (reads_parseMember ht out) hrest

theorem reads_parse (ts : List Placed) (hread : ∀ t ∈ ts, Readable t) :
    Reads parse ([123] ++ joinComma (ts.map descriptorOf) ++ [125]) (ts.map headerOf) Any := by
  rw [append_assoc]
  refine reads_skipWs_bind ?_ fun ys _ => noSpace_cons (b := 123) (by decide) _
  refine (reads_expect 123).bind ?_ fun _ _ => trivial
  cases ts with
  | nil =>
    refine reads_skipWs_bind ?_ fun ys _ => noSpace_cons (b := 125) (by decide) _
    intro pos ys _
    rfl
  | cons t ts =>
    obtain ⟨s, hs⟩ := descriptorOf_head t
    obtain ⟨cs, hcs⟩ := joinComma_head 34 s (ts.map descriptorOf)
    have hloop : Reads (withFuel fun fuel => parseLoop fuel [])
        (joinComma ((t :: ts).map descriptorOf) ++ [125]) ((t :: ts).map headerOf) Any := by
      refine reads_withFuel fun fuel hf => reads_parseLoop t ts [] fuel ?_ hread
      have hl := length_le_joinComma ((t :: ts).map descriptorOf)
      simp only [length_map, length_cons, length_append, length_nil] at hl hf
      omega
    rw [map_cons, hs, hcs, cons_append] at hloop ⊢
    refine reads_skipWs_bind ?_ fun ys _ => noSpace_cons (b := 34) (by decide) _
    refine reads_peek_bind ?_
    rwa [if_neg (by decide)]

theorem offsetsFrom_cons {offset : Nat} {p : ByteString × Entry} {l : List (ByteString × Entry)}
    (h : offset + p.2.data.length < 2 ^ 64) :
    offsetsFrom offset (p :: l) = (p.1, p.2, offset, offset + p.2.data.length) ::
      offsetsFrom (offset + p.2.data.length) l := by
  simp only [offsetsFrom, Nat.mod_eq_of_lt h]

theorem readable_offsetsFrom (l : List (ByteString × Entry)) (offset : Nat)
    (hd : ∀ p ∈ l, p.1 ≠ ascii "__metadata__" ∧ toSafetensors p.2.dtype ≠ [])
    (hsize : offset + (l.flatMap fun p => p.2.data).length < 2 ^ 63) :
    ∀ t ∈ offsetsFrom offset l, Readable t := by
  induction l generalizing offset with
  | nil => simp [offsetsFrom]
  | cons p l ih =>
    rw [flatMap_cons, length_append] at hsize
    rw [offsetsFrom_cons (by omega)]
    intro t ht
    rcases mem_cons.mp ht with rfl | ht
    · obtain ⟨hn, hdt⟩ := hd p mem_cons_self
      exact ⟨hn, hdt, Nat.le_add_right _ _, by simp only; omega⟩
    · exact ih _ (fun q hq => hd q (mem_cons_of_mem _ hq)) (by omega) t ht

theorem addTensors_cons {path : String} {data : ByteString} {th : TensorHeader}
    {rest : List TensorHeader} {pool : TensorPool} (hend : th.endOff ≤ data.length)
    (hd : fromSafetensors th.dtype ≠ onnxUndefined) :
    addTensors path data (th :: rest) pool = addTensors path data rest (pool.insert th.name
      ⟨fromSafetensors th.dtype, th.shape,
        (data.drop th.beginOff).take (th.endOff - th.beginOff)⟩) := by
  rw [addTensors, if_neg (Nat.not_lt.mpr hend)]
  exact if_neg hd

theorem addTensors_offsetsFrom (path : String) (l : List (ByteString × Entry)) (pre : ByteString)
    (acc : TensorPool) (hd : ∀ p ∈ l, toSafetensors p.2.dtype ≠ [])
    (hsize : pre.length + (l.flatMap fun p => p.2.data).length < 2 ^ 63) :
    addTensors path (pre ++ l.flatMap fun p => p.2.data) ((offsetsFrom pre.length l).map headerOf)
      acc = (.ok (), l.foldl (fun acc p => acc.insert p.1 p.2) acc) := by
  induction l generalizing pre acc with
  | nil => rfl
  | cons p l ih =>
    rw [flatMap_cons, length_append] at hsize
    obtain ⟨hdt, hund⟩ := fromSafetensors_toSafetensors (hd p mem_cons_self)
    have hdata : ((pre ++ (p.2.data ++ l.flatMap fun p => p.2.data)).drop pre.length).take
        (pre.length + p.2.data.length - pre.length) = p.2.data := by
      rw [drop_left, Nat.add_sub_cancel_left, take_left]
    have hrest := ih (pre ++ p.2.data) (acc.insert p.1 p.2)
      (fun q hq => hd q (mem_cons_of_mem _ hq)) (by rw [length_append]; omega)
    rw [append_assoc, length_append] at hrest
    rw [offsetsFrom_cons (by omega), map_cons, flatMap_cons, addTensors_cons,
      foldl_cons, headerOf, hdt, hdata, hrest]
    · simp only [headerOf, length_append]
      omega
    · rw [headerOf, hdt]
      exact hund

end Onnxsim.Storage.SafetensorsRoundTrip

namespace Onnxsim.Storage.ReservedName

open List Lib.Bytes Lib.OrderedMaps Lib.Readers Pool
open HeaderParser Safetensors SafetensorsRoundTrip

variable {α : Type} {out : List TensorHeader} {pool : TensorPool} {file : ByteString} {path : String}

theorem yields_fail (what : String) (Q : α → Prop) : Yields (fail what) Q :=
  yields_error fun _ => ⟨_, rfl⟩

theorem yields_withFuel {p : Nat → Parser α} {Q : α → Prop} (h : ∀ n, Yields (p n) Q) : Yields (withFuel p) Q := fun c a c' ha => h _ c a c' ha

theorem yields_parseField (key : ByteString) (th : TensorHeader) (ho : Bool) :
    Yields (parseField key th ho) fun st => st.1.name = th.name := by
  rw [parseField]
  split
  · exact yields_bind fun _ => yields_pure rfl
  split
  · exact yields_bind fun _ => yields_pure rfl
  split
  · refine yields_bind fun off => ?_
    split
    · split
      · exact yields_fail _ _
      · exact yields_pure rfl
    · exact yields_fail _ _
  · exact yields_bind fun _ => yields_pure rfl

theorem yields_parseTensorHeaderLoop (fuel : Nat) (th : TensorHeader) (ho : Bool) :
    Yields (parseTensorHeaderLoop fuel th ho) fun st => st.1.name = th.name := by
  induction fuel generalizing th ho with
  | zero => exact yields_fail _ _
  | succ fuel ih =>
    refine yields_bind fun key => ?_
    refine (yields_parseField key th ho).bind fun st hst => ?_
    refine yields_bind fun _ => yields_bind fun c => ?_
    split
    · exact hst ▸ ih st.1 st.2
    split
    · exact yields_pure hst
    · exact yields_fail _ _

theorem yields_parseTensorHeader (name : ByteString) :
    Yields (parseTensorHeader name) fun th => th.name = name := by
  refine yields_bind fun _ => yields_bind fun _ => yields_bind fun c => ?_
  split
  · exact yields_bind fun _ => yields_fail _ _
  · refine (yields_withFuel fun fuel =>
      yields_parseTensorHeaderLoop fuel { name := name } false).bind fun st hst => ?_
    split
    · exact yields_fail _ _
    · exact yields_pure hst

def NoneReserved (out : List TensorHeader) : Prop := ∀ th ∈ out, th.name ≠ ascii "__metadata__"

theorem yields_parseMember (key : ByteString) (h : NoneReserved out) : Yields (parseMember key out) NoneReserved := by
  rw [parseMember]
  split
  · exact yields_bind fun _ => yields_pure h
  · next hkey =>
    refine (yields_parseTensorHeader key).bind fun th hth => yields_pure fun u hu => ?_
    rcases mem_append.mp hu with hu | hu
    · exact h u hu
    · rw [mem_singleton.mp hu, hth]
      exact hkey

theorem yields_parseLoop (fuel : Nat) (h : NoneReserved out) : Yields (parseLoop fuel out) NoneReserved := by
  induction fuel generalizing out with
  | zero => exact yields_fail _ _
  | succ fuel ih =>
    refine yields_bind fun key => (yields_parseMember key h).bind fun out' hout => ?_
    refine yields_bind fun _ => yields_bind fun c => ?_
    split
    · exact ih hout
    split
    · exact yields_pure hout
    · exact yields_fail _ _

theorem yields_parse : Yields parse NoneReserved := by
  have hnil : NoneReserved [] := by simp [NoneReserved]
  refine yields_bind fun _ => yields_bind fun _ => yields_bind fun _ => yields_bind fun c => ?_
  split
  · exact yields_bind fun _ => yields_pure hnil
  · exact yields_withFuel fun fuel => yields_parseLoop fuel hnil

theorem find?_addTensors (path : String) (data : ByteString) (k : ByteString)
    (ths : List TensorHeader) (hk : ∀ th ∈ ths, th.name ≠ k) (pool : TensorPool) :
    (addTensors path data ths pool).2.find? k = pool.find? k := by
  induction ths generalizing pool with
  | nil => rfl
  | cons th ths ih =>
    have hth := hk th mem_cons_self
    have hrest := fun p => ih (fun u hu => hk u (mem_cons_of_mem _ hu)) p
    rw [addTensors]
    split
    · rfl
    · simp only
      split
      · rfl
      · rw [hrest, SortedMap.find?_insert, if_neg (Ne.symm hth)]

theorem loadSafetensors_not_reserved {prior : TensorPool} (h : loadSafetensors prior path file = (.ok (), pool)) :
    ascii "__metadata__" ∉ pool.keys := by
  rw [loadSafetensors] at h
  split at h
  · cases h
  simp only at h
  split at h
  · cases h
  split at h
  · cases h
  · next headers c hp =>
    have hnone := yields_parse _ _ _ hp
    rw [← SortedMap.find?_eq_none_iff, ← show _ = pool from congrArg Prod.snd h,
      find?_addTensors _ _ _ _ hnone, SortedMap.find?_empty]

/-- An entry that safetensors can hold, with as many bytes as its shape says. -/
structure Representable (entry : Entry) : Prop where
  dtype : toSafetensors entry.dtype ≠ []
  bytes : (entry.data.length : Int) =
    (entry.shape.map Int64.toInt).prod * elementSize entry.dtype

def RoundTrips (pool : TensorPool) : Prop :=
  ∀ path, ∃ file offsets, saveSafetensors pool path = .ok (file, offsets) ∧
    ∀ prior, loadSafetensors prior path file = (.ok (), pool)

theorem eq_of_saveSafetensors {offsets : SortedMap ByteString (Nat × Nat)}
    (h : saveSafetensors pool path = .ok (file, offsets)) :
    file = fileBytes pool ∧ (fileBytes pool).length < maxFileSize := by
  rw [saveSafetensors] at h
  split at h
  · cases h
  split at h
  · cases h
  · next hlt =>
    cases h
    exact ⟨rfl, Nat.not_le.mp hlt⟩

theorem saveSafetensors_ok (path : String) (hd : ∀ p ∈ pool.entries, toSafetensors p.2.dtype ≠ [])
    (hsize : (fileBytes pool).length < maxFileSize) :
    ∃ offsets, saveSafetensors pool path = .ok (fileBytes pool, offsets) := by
  have hnone : pool.entries.find? (fun p => toSafetensors p.2.dtype = []) = none := by
    simpa using fun a b hp => hd (a, b) hp
  rw [saveSafetensors, hnone]
  exact ⟨_, if_neg (Nat.not_le.mpr hsize)⟩

theorem parse_headerText (hd : ∀ p ∈ pool.entries, p.1 ≠ ascii "__metadata__" ∧ toSafetensors p.2.dtype ≠ [])
    (hsize : (pool.entries.flatMap fun p => p.2.data).length < 2 ^ 63) :
    ∃ c, parse ⟨0, headerText pool⟩ = .ok ((offsetsFrom 0 pool.entries).map headerOf, c) := by
  have hread := readable_offsetsFrom pool.entries 0 hd (by omega)
  exact ⟨_, reads_parse _ hread 0 _ trivial⟩

theorem loadSafetensors_fileBytes (prior : TensorPool) (path : String)
    (hd : ∀ p ∈ pool.entries, toSafetensors p.2.dtype ≠ []) (hname : ascii "__metadata__" ∉ pool.keys)
    (hsize : (fileBytes pool).length < maxFileSize) :
    loadSafetensors prior path (fileBytes pool) = (.ok (), pool) := by
  have hlen : (fileBytes pool).length = 8 + (headerText pool).length +
      (pool.entries.flatMap fun p => p.2.data).length := by
    simp only [fileBytes, length_append, leBytes_length]
  rw [maxFileSize, hlen] at hsize
  have hread : ∀ p ∈ pool.entries, p.1 ≠ ascii "__metadata__" ∧ toSafetensors p.2.dtype ≠ [] :=
    fun p hp => ⟨fun he => hname (List.mem_map.mpr ⟨p, hp, he⟩), hd p hp⟩
  obtain ⟨c, hparse⟩ := parse_headerText hread (by omega)
  have hfile : fileBytes pool = leBytes 8 (headerText pool).length ++ (headerText pool ++
      pool.entries.flatMap fun p => p.2.data) := append_assoc _ _ _
  have htake : (fileBytes pool).take 8 = leBytes 8 (headerText pool).length := by
    rw [hfile, take_append_of_le_length (by simp), take_of_length_le (by simp)]
  have hdrop : (fileBytes pool).drop 8 = headerText pool ++ pool.entries.flatMap fun p => p.2.data := by
    rw [hfile, drop_append_of_le_length (by simp), drop_of_length_le (by simp),
      nil_append]
  have hle : ofLE (leBytes 8 (headerText pool).length) = (headerText pool).length :=
    ofLE_leBytes_of_lt (by omega)
  have hadd := addTensors_offsetsFrom path pool.entries [] .empty hd (by simp only [length_nil]; omega)
  simp only [nil_append, length_nil, SortedMap.foldl_insert_entries] at hadd
  rw [loadSafetensors, if_neg (by omega)]
  simp only [htake, hle, hdrop, take_left, hparse]
  rw [if_neg (by omega), ← List.drop_drop, hdrop, drop_left]
  exact hadd

/-- A pool comes back from its safetensors file exactly when no tensor carries the name of the
header's metadata member and the file's size fits a stream position. -/
theorem roundTrips_iff (pool : TensorPool) (hpool : ∀ p ∈ pool.entries, Representable p.2) :
    RoundTrips pool ↔
      ascii "__metadata__" ∉ pool.keys ∧ (fileBytes pool).length < maxFileSize := by
  constructor
  · intro h
    obtain ⟨file, offsets, hsave, hload⟩ := h ""
    exact ⟨loadSafetensors_not_reserved (hload .empty), (eq_of_saveSafetensors hsave).2⟩
  · rintro ⟨hname, hsize⟩ path
    have hd : ∀ p ∈ pool.entries, toSafetensors p.2.dtype ≠ [] := fun p hp => (hpool p hp).dtype
    obtain ⟨offsets, hsave⟩ := saveSafetensors_ok path hd hsize
    exact ⟨_, offsets, hsave, fun prior => loadSafetensors_fileBytes prior path hd hname hsize⟩

def oneByte : Entry := ⟨2, [1], [7]⟩

def namedPool (name : ByteString) : TensorPool := SortedMap.empty.insert name oneByte

theorem namedPool_representable (name : ByteString) :
    ∀ p ∈ (namedPool name).entries, Representable p.2 := by
  intro p hp
  obtain rfl : p = (name, oneByte) := mem_singleton.mp hp
  have h : Representable oneByte := ⟨by decide, by decide⟩
  exact h

theorem roundTrips_quoted : RoundTrips (namedPool (ascii "a\"b")) :=
  (roundTrips_iff _ (namedPool_representable _)).mpr ⟨by decide, by decide +kernel⟩

theorem metadata_tensor_lost :
    (∀ p ∈ (namedPool (ascii "__metadata__")).entries, Representable p.2) ∧
      ¬ RoundTrips (namedPool (ascii "__metadata__")) := by
  refine ⟨namedPool_representable _, fun h => ?_⟩
  obtain ⟨file, offsets, -, hload⟩ := h ""
  exact loadSafetensors_not_reserved (hload .empty) (by decide)

variable {file' : ByteString} {offsets : SortedMap ByteString (Nat × Nat)} {prior : TensorPool}

/-- What a file has loaded survives being saved again: the reserved name never gets into the pool. -/
theorem loadSafetensors_resaved (hload : loadSafetensors prior path file = (.ok (), pool)) {path' : String}
    (hsave : saveSafetensors pool path' = .ok (file', offsets)) (prior' : TensorPool) (path'' : String) :
    loadSafetensors prior' path'' file' = (.ok (), pool) := by
  obtain ⟨rfl, hsize⟩ := eq_of_saveSafetensors hsave
  have hd : ∀ p ∈ pool.entries, toSafetensors p.2.dtype ≠ [] := by
    rw [saveSafetensors] at hsave
    split at hsave
    · cases hsave
    · next hnone => simpa using hnone
  exact loadSafetensors_fileBytes prior' path'' hd (loadSafetensors_not_reserved hload) hsize

theorem resaved_quoted : ∃ file offsets, saveSafetensors (namedPool (ascii "a\"b")) "" = .ok (file, offsets) ∧
    loadSafetensors .empty "" file = (.ok (), namedPool (ascii "a\"b")) := by
  have hd := fun p hp => (namedPool_representable (ascii "a\"b") p hp).dtype
  have hsize : (fileBytes (namedPool (ascii "a\"b"))).length < maxFileSize := by decide +kernel
  obtain ⟨offsets, hsave⟩ := saveSafetensors_ok "" hd hsize
  have hload := loadSafetensors_fileBytes .empty "" hd (by decide) hsize
  exact ⟨_, offsets, hsave, loadSafetensors_resaved hload hsave _ _⟩

end Onnxsim.Storage.ReservedName
