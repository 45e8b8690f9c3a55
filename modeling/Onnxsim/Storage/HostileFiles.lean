import Onnxsim.Storage.Atomicity
import Onnxsim.Storage.GgufRoundTrip
import Onnxsim.Storage.ReservedName

namespace Onnxsim.Storage.HostileFiles

open List Lib.Bytes Lib.Loading Lib.OrderedMaps Lib.Readers
open Pool GgufTypes Gguf
open GgufLayout GgufLimits
open HeaderParser Safetensors Loaders
open Atomicity ReservedName

variable {file : ByteString} {p : ByteString × Entry} {path : String}

def Ordered (th : TensorHeader) : Prop := th.beginOff ≤ th.endOff

variable {th : TensorHeader} {data : ByteString}

theorem yields_parseField_ordered (key : ByteString) (h : Ordered th) (ho : Bool) :
    Yields (parseField key th ho) fun st => Ordered st.1 := by
  rw [parseField]
  split
  · exact yields_bind fun _ => yields_pure h
  split
  · exact yields_bind fun _ => yields_pure h
  split
  · refine yields_bind fun off => ?_
    split
    · next b e =>
      split
      · exact yields_fail _ _
      · next hrange =>
        apply yields_pure
        change b.toInt.toNat ≤ e.toInt.toNat
        omega
    · exact yields_fail _ _
  · exact yields_bind fun _ => yields_pure h

theorem yields_parseTensorHeaderLoop_ordered (fuel : Nat) (h : Ordered th) (ho : Bool) :
    Yields (parseTensorHeaderLoop fuel th ho) fun st => Ordered st.1 := by
  induction fuel generalizing th ho with
  | zero => exact yields_fail _ _
  | succ fuel ih =>
    refine yields_bind fun key => ?_
    refine (yields_parseField_ordered key h ho).bind fun st hst => ?_
    refine yields_bind fun _ => yields_bind fun c => ?_
    split
    · exact ih hst st.2
    split
    · exact yields_pure hst
    · exact yields_fail _ _

theorem yields_parseMember_ordered (key : ByteString) {out : List TensorHeader}
    (h : ∀ th ∈ out, Ordered th) : Yields (parseMember key out) fun out => ∀ th ∈ out, Ordered th := by
  rw [parseMember]
  split
  · exact yields_bind fun _ => yields_pure h
  · have hth : Yields (parseTensorHeader key) Ordered := by
      refine yields_bind fun _ => yields_bind fun _ => yields_bind fun c => ?_
      split
      · exact yields_bind fun _ => yields_fail _ _
      · have hnew : Ordered { name := key } := Nat.le_refl 0
        refine (yields_withFuel fun fuel =>
          yields_parseTensorHeaderLoop_ordered fuel hnew false).bind fun st hst => ?_
        split
        · exact yields_fail _ _
        · exact yields_pure hst
    refine hth.bind fun th hord => yields_pure fun u hu => ?_
    rcases mem_append.mp hu with hu | hu
    · exact h u hu
    · rw [mem_singleton.mp hu]
      exact hord

theorem yields_parse_ordered : Yields parse fun headers => ∀ th ∈ headers, Ordered th := by
  have hloop : ∀ (fuel : Nat) (out : List TensorHeader), (∀ th ∈ out, Ordered th) →
      Yields (parseLoop fuel out) fun headers => ∀ th ∈ headers, Ordered th := by
    intro fuel
    induction fuel with
    | zero => exact fun _ _ => yields_fail _ _
    | succ fuel ih =>
      intro out h
      refine yields_bind fun key => (yields_parseMember_ordered key h).bind fun out' hout => ?_
      refine yields_bind fun _ => yields_bind fun c => ?_
      split
      · exact ih _ hout
      split
      · exact yields_pure hout
      · exact yields_fail _ _
  refine yields_bind fun _ => yields_bind fun _ => yields_bind fun _ => yields_bind fun c => ?_
  split
  · exact yields_bind fun _ => yields_pure (by simp)
  · exact yields_withFuel fun fuel => hloop fuel [] (by simp)

theorem headerTensors_ordered {headers : List TensorHeader} (h : headerTensors file = some (headers, data)) :
    ∀ th ∈ headers, Ordered th := by
  rw [headerTensors] at h
  split at h
  · cases h
  split at h
  · cases h
  split at h
  · cases h
  · next headers' c hp =>
    cases h
    exact yields_parse_ordered _ _ _ hp

/-- An entry of the size its shape and dtype ask for, taken from inside the data segment. -/
structure TensorWellFormed (data : ByteString) (th : TensorHeader) (e : Entry) : Prop where
  size : (e.data.length : Int) = elements e.shape * elementSize e.dtype
  range : th.beginOff ≤ th.endOff ∧ th.endOff ≤ data.length

/-- The length of the range is that of the shape, which the loader never compares. -/
def TensorFits (th : TensorHeader) : Prop :=
  ((th.endOff - th.beginOff : Nat) : Int) = elements th.shape * elementSize (fromSafetensors th.dtype)

theorem tensorWellFormed_iff (hord : Ordered th) (h : entryOfTensor data th = some p) :
    TensorWellFormed data th p.2 ↔ TensorFits th := by
  rw [entryOfTensor, entryOf, checkTensor] at h
  by_cases hrange : data.length < th.endOff
  · rw [if_pos hrange] at h
    cases h
  · rw [if_neg hrange] at h
    by_cases hdtype : fromSafetensors th.dtype = onnxUndefined
    · rw [if_pos hdtype] at h
      cases h
    · rw [if_neg hdtype] at h
      cases h
      have hlen : ((data.drop th.beginOff).take (th.endOff - th.beginOff)).length =
          th.endOff - th.beginOff := by
        apply length_take_of_le
        rw [List.length_drop]
        omega
      constructor
      · intro hwf
        rw [TensorFits, ← hlen]
        exact hwf.size
      · intro hfits
        refine ⟨?_, hord, Nat.not_lt.mp hrange⟩
        rw [TensorFits, ← hlen] at hfits
        exact hfits

def sectionStart (l : Layout) : Nat :=
  if l.headerEnd % l.alignment = 0 then l.headerEnd
  else l.headerEnd + (l.alignment - l.headerEnd % l.alignment)

/-- An entry of the size its shape and type ask for, counted without wraparound, taken from inside the
data section. -/
structure InfoWellFormed (file : ByteString) (l : Layout) (info : TensorInfo) (e : Entry) : Prop where
  size : WellSized e
  count : info.ne.prod < 2 ^ 64
  range : sectionStart l ≤ byteOffset l.dataStart info ∧
    byteOffset l.dataStart info + e.data.length ≤ file.length

/-- The counts and offsets that the loader computes in 64 bits stay in 64 bits. -/
structure InfoFits (l : Layout) (info : TensorInfo) : Prop where
  dims : 0 ∈ info.ne ∨ ((∀ d ∈ info.ne, d < 2 ^ 63) ∧ info.ne.prod < 2 ^ 64 ∧
    ∀ t, ofCode info.ggmlType = some t → info.ne.prod / (block t).1 * (block t).2 < 2 ^ 64)
  offset : sectionStart l + info.offset < 2 ^ 64

structure InWord (info : TensorInfo) : Prop where
  dims : ∀ d ∈ info.ne, d < 2 ^ 64
  offset : info.offset < 2 ^ 64

theorem yields_readLE (path : String) (k : Nat) : Yields (readLE path k) fun n => n < 256 ^ k := by
  refine (yields_readBytes path _ k).bind fun bytes hlen => yields_pure ?_
  rw [← hlen]
  exact ofLE_lt bytes

theorem yields_readTensorInfo_inWord (path : String) : Yields (readTensorInfo path) InWord := by
  refine yields_bind fun name => yields_bind fun nDims => ?_
  split
  · exact yields_failRead path _ _
  · refine (yields_readMany (yields_readLE path 8) nDims).bind fun ne hne => ?_
    refine yields_bind fun ggmlType => (yields_readLE path 8).bind fun offset hoff => ?_
    exact yields_pure ⟨hne.2, hoff⟩

variable {l : Layout} {info : TensorInfo} {d : Nat} {ne : List Nat}

theorem layoutOf_inWord {mapped : Bool} (h : layoutOf mapped path file = .ok l) : ∀ info ∈ l.infos, InWord info := by
  have hread : Yields (readLayoutWith (if mapped then seekMapped file path else seekCur file path) path)
      fun r => ∀ info ∈ r.1, InWord info := by
    refine yields_bind fun counts => yields_bind fun alignment => ?_
    exact (yields_readMany (yields_readTensorInfo_inWord path) counts.1).bind fun infos hi =>
      yields_pure hi.2
  rw [layoutOf] at h
  split at h
  · cases h
  · next infos alignment c hr =>
    cases h
    exact hread _ _ _ hr

theorem dataStart_of_lt (h : sectionStart l < 2 ^ 64) : l.dataStart = sectionStart l := by
  rw [sectionStart] at h
  rw [Layout.dataStart, alignUp, sectionStart]
  by_cases hzero : l.alignment = 0
  · rw [if_pos hzero, hzero, Nat.mod_zero]
    split <;> omega
  · rw [if_neg hzero]
    split
    · rfl
    · next hmod =>
      rw [if_neg hmod] at h
      exact Nat.mod_eq_of_lt h

theorem sectionStart_le_iff (hoff : info.offset < 2 ^ 64) :
    sectionStart l ≤ byteOffset l.dataStart info ↔ sectionStart l + info.offset < 2 ^ 64 := by
  have hlt : byteOffset l.dataStart info < 2 ^ 64 := Nat.mod_lt _ (by decide)
  by_cases hstart : sectionStart l < 2 ^ 64
  · rw [byteOffset, dataStart_of_lt hstart]
    omega
  · omega

theorem toInt_onnxDim (h : d < 2 ^ 63) : (UInt64.ofNat d).toInt64.toInt = d := by
  have hmod := toInt64_modEq d
  have hlo := (UInt64.ofNat d).toInt64.le_toInt
  have hhi := (UInt64.ofNat d).toInt64.toInt_lt
  rw [Int.ModEq] at hmod
  omega

theorem toInt_onnxDim_neg (h : 2 ^ 63 ≤ d) (hw : d < 2 ^ 64) : (UInt64.ofNat d).toInt64.toInt < 0 := by
  have hmod := toInt64_modEq d
  have hlo := (UInt64.ofNat d).toInt64.le_toInt
  have hhi := (UInt64.ofNat d).toInt64.toInt_lt
  rw [Int.ModEq] at hmod
  omega

theorem elements_eq_map (ne : List Nat) :
    elements (onnxShape ne) = (ne.map fun d => (UInt64.ofNat d).toInt64.toInt).prod := by
  rw [elements, onnxShape, List.map_map, map_reverse, prod_reverse]
  rfl

theorem elements_of_small (h : ∀ d ∈ ne, d < 2 ^ 63) : elements (onnxShape ne) = ne.prod := by
  rw [elements_eq_map, Nat.cast_list_prod]
  congr 1
  exact map_congr_left fun d hd => toInt_onnxDim (h d hd)

theorem elements_of_zero (h : 0 ∈ ne) : elements (onnxShape ne) = 0 := by
  rw [elements_eq_map]
  exact prod_eq_zero (List.mem_map.mpr ⟨0, h, by decide⟩)

/-- A dimension that does not fit a signed word makes the shape negative, unless something wraps or some
dimension is zero. -/
theorem small_of_elements {n : Nat} (hw : ∀ d ∈ ne, d < 2 ^ 64) (hzero : 0 ∉ ne) (hprod : ne.prod < 2 ^ 64)
    (h : elements (onnxShape ne) = n) :
    ∀ d ∈ ne, d < 2 ^ 63 := by
  intro d hd
  by_contra hlarge
  obtain ⟨l₁, l₂, rfl⟩ := append_of_mem hd
  have hpos : 0 < (l₁ ++ l₂).prod := by
    apply Nat.pos_of_ne_zero
    intro he
    obtain hmem := prod_eq_zero_iff.mp he
    apply hzero
    rcases mem_append.mp hmem with hm | hm
    · exact mem_append_left _ hm
    · exact mem_append_right _ (mem_cons_of_mem _ hm)
  have hsplit : (l₁ ++ d :: l₂).prod = d * (l₁ ++ l₂).prod := by
    rw [prod_append, prod_cons, prod_append]
    exact Nat.mul_left_comm _ _ _
  have hrest : (l₁ ++ l₂).prod = 1 := by
    rw [hsplit] at hprod
    by_contra hne
    have htwo : d * 2 ≤ d * (l₁ ++ l₂).prod := Nat.mul_le_mul_left d (by omega)
    omega
  have hsmall : ∀ x ∈ l₁ ++ l₂, x < 2 ^ 63 := by
    intro x hx
    have hdvd : x ∣ (l₁ ++ l₂).prod := dvd_prod hx
    rw [hrest, Nat.dvd_one] at hdvd
    rw [hdvd]
    decide
  have hvalue : elements (onnxShape (l₁ ++ d :: l₂)) = (UInt64.ofNat d).toInt64.toInt := by
    have hothers := elements_of_small hsmall
    rw [hrest, elements_eq_map, map_append, prod_append] at hothers
    rw [elements_eq_map, map_append, prod_append, map_cons, prod_cons,
      mul_left_comm, hothers]
    simp
  rw [hvalue] at h
  have hneg := toInt_onnxDim_neg (Nat.not_lt.mp hlarge) (hw d (by simp))
  omega

theorem infoWellFormed_iff (hword : InWord info) (h : entryOfInfo file l.dataStart info = some p) :
    InfoWellFormed file l info p.2 ↔ InfoFits l info := by
  rw [entryOfInfo, entryOf, checkInfo] at h
  cases hcode : ofCode info.ggmlType with
  | none => simp [hcode] at h
  | some t =>
    cases hbytes : tryTotalBytes t (elementCount info.ne) with
    | none => simp [hcode, hbytes] at h
    | some nbytes =>
      simp only [hcode, hbytes] at h
      by_cases hrange : file.length < byteOffset l.dataStart info ∨
          file.length - byteOffset l.dataStart info < nbytes
      · rw [if_pos hrange] at h
        cases h
      · rw [if_neg hrange] at h
        cases h
        have hlen : (infoEntry file l.dataStart info t nbytes).2.data.length = nbytes := by
          apply length_take_of_le
          rw [List.length_drop]
          omega
        have hdtype : fromOnnx (infoEntry file l.dataStart info t nbytes).2.dtype = some t :=
          fromOnnx_toOnnx t
        rw [tryTotalBytes_eq, blockBytesOf, elementCount_eq] at hbytes
        split at hbytes
        · cases hbytes
        · next hdvd =>
          have hn := Option.some.inj hbytes
          constructor
          · intro hwf
            refine ⟨?_, (sectionStart_le_iff hword.offset).mp hwf.range.1⟩
            by_cases hzero : 0 ∈ info.ne
            · exact .inl hzero
            · obtain ⟨t', n, ht', hel, -, hdata⟩ := hwf.size
              rw [hdtype] at ht'
              cases ht'
              have hsmall := small_of_elements hword.dims hzero hwf.count hel
              refine .inr ⟨hsmall, hwf.count, fun t' ht' => ?_⟩
              rw [hcode] at ht'
              cases ht'
              have hprod : (n : Int) = info.ne.prod := hel.symm.trans (elements_of_small hsmall)
              obtain rfl : n = info.ne.prod := Int.ofNat.inj hprod
              rw [hlen] at hdata
              rw [← hdata, ← hn]
              exact Nat.mod_lt _ (by decide)
          · intro hfits
            have hoffset := (sectionStart_le_iff hword.offset).mpr hfits.offset
            have hend : byteOffset l.dataStart info +
                (infoEntry file l.dataStart info t nbytes).2.data.length ≤ file.length := by
              rw [hlen]
              omega
            have hcount : info.ne.prod < 2 ^ 64 := by
              rcases hfits.dims with hzero | ⟨-, hprod, -⟩
              · rw [prod_eq_zero hzero]
                decide
              · exact hprod
            refine ⟨⟨t, info.ne.prod, hdtype, ?_, ?_, ?_⟩, hcount, hoffset, hend⟩
            · rcases hfits.dims with hzero | ⟨hsmall, -, -⟩
              · rw [prod_eq_zero hzero]
                exact elements_of_zero hzero
              · exact elements_of_small hsmall
            · rw [Nat.mod_eq_of_lt hcount] at hdvd
              exact Nat.dvd_of_mod_eq_zero (not_not.mp hdvd)
            · rw [hlen, ← hn, Nat.mod_eq_of_lt hcount]
              apply Nat.mod_eq_of_lt
              rcases hfits.dims with hzero | ⟨-, -, htotal⟩
              · rw [prod_eq_zero hzero]
                simp
              · exact htotal t hcode

def SafetensorsSound (file : ByteString) (r : Except String Unit × TensorPool) : Prop :=
  r.1 = .ok () → ∃ headers data, headerTensors file = some (headers, data) ∧
    AllSupplied (entryOfTensor data) headers (TensorWellFormed data) r.2

/-- In a file that loads, every range that reaches the pool has the length its shape asks for. -/
def SafetensorsFits (file : ByteString) : Prop :=
  ∀ headers data, headerTensors file = some (headers, data) →
    (∀ th ∈ headers, tensorLoads data th = true) →
    ∀ th p, Supplies (entryOfTensor data) headers th p → TensorFits th

def GgufSound (mapped : Bool) (path : String) (file : ByteString)
    (r : Except String (List ByteString) × TensorPool) : Prop :=
  (∃ skipped, r.1 = .ok skipped) → ∃ l, layoutOf mapped path file = .ok l ∧
    AllSupplied (entryOfInfo file l.dataStart) l.infos (InfoWellFormed file l) r.2

/-- In a file that loads, the sizes and offsets of every tensor that reaches the pool stay in 64 bits. -/
def GgufFits (mapped : Bool) (path : String) (file : ByteString) : Prop :=
  ∀ l, layoutOf mapped path file = .ok l →
    (∀ info ∈ l.infos, infoLoads file l.dataStart info = true) →
    ∀ info p, Supplies (entryOfInfo file l.dataStart) l.infos info p → InfoFits l info

theorem safetensorsSound_iff {prior : TensorPool} {r : Except String Unit × TensorPool} {loader : String}
    (h : RunsLoop prior r (checkTensor loader path ((headerTensors file).elim [] Prod.snd))
      ((headerTensors file).map Prod.fst)) :
    SafetensorsSound file r ↔ SafetensorsFits file := by
  rw [SafetensorsSound, SafetensorsFits]
  cases hfile : headerTensors file with
  | none =>
    rw [hfile] at h
    obtain ⟨⟨e, he⟩, -⟩ := h
    simp [he]
  | some hd =>
    obtain ⟨headers, data⟩ := hd
    rw [hfile] at h
    have hrun : r = loadEach (checkTensor loader path data) headers .empty := h
    have hok : r.1 = .ok () ↔ ∀ th ∈ headers, tensorLoads data th = true := by
      rw [hrun, loadEach_ok_iff]
      simp only [passes_checkTensor]
    have hpool : r.1 = .ok () → r.2 = .ofList (headers.filterMap (entryOfTensor data)) := by
      intro hr
      rw [hrun, loadEach_empty_snd, loaded_of_all_pass, entryOf_checkTensor]
      rwa [hrun, loadEach_ok_iff] at hr
    have hgood : (∀ th p, Supplies (entryOfTensor data) headers th p → TensorWellFormed data th p.2) ↔
        ∀ th p, Supplies (entryOfTensor data) headers th p → TensorFits th := by
      refine forall_congr' fun th => forall_congr' fun p => forall_congr' fun hs => ?_
      exact tensorWellFormed_iff (headerTensors_ordered hfile th hs.mem) hs.entry_eq
    constructor
    · intro hsound headers' data' heq hall
      cases heq
      obtain ⟨headers', data', heq, hsupplied⟩ := hsound (hok.mpr hall)
      cases heq
      rw [hpool (hok.mpr hall), allSupplied_iff] at hsupplied
      exact hgood.mp hsupplied
    · intro hfits hr
      refine ⟨headers, data, rfl, ?_⟩
      rw [hpool hr, allSupplied_iff]
      exact hgood.mpr (hfits headers data rfl (hok.mp hr))

theorem ggufSound_iff (mapped : Bool) (prior : TensorPool) (path : String) (file : ByteString) :
    GgufSound mapped path file (loadGGUFMmap mapped prior path file) ↔ GgufFits mapped path file := by
  rw [GgufSound, GgufFits, loadGGUFMmap_eq]
  cases hfile : layoutOf mapped path file with
  | error e => simp
  | ok l =>
    obtain ⟨hpool, hresult⟩ := addInfos_eq path file l.dataStart l.infos [] .empty
    have hok : (∃ skipped, (addInfos path file l.dataStart l.infos [] .empty).1 = .ok skipped) ↔
        ∀ info ∈ l.infos, infoLoads file l.dataStart info = true := by
      have hload := loadEach_ok_iff (checkInfo path file l.dataStart) l.infos .empty
      rw [← hresult] at hload
      simp only [passes_checkInfo] at hload
      rw [← hload]
      cases (addInfos path file l.dataStart l.infos [] .empty).1 <;> simp [Except.map]
    have hloaded : (∀ info ∈ l.infos, infoLoads file l.dataStart info = true) →
        (addInfos path file l.dataStart l.infos [] .empty).2 =
          .ofList (l.infos.filterMap (entryOfInfo file l.dataStart)) := by
      intro hall
      rw [hpool, loadEach_empty_snd, loaded_of_all_pass, entryOf_checkInfo]
      simpa only [passes_checkInfo] using hall
    have hgood : (∀ info p, Supplies (entryOfInfo file l.dataStart) l.infos info p →
          InfoWellFormed file l info p.2) ↔
        ∀ info p, Supplies (entryOfInfo file l.dataStart) l.infos info p → InfoFits l info := by
      refine forall_congr' fun info => forall_congr' fun p => forall_congr' fun hs => ?_
      exact infoWellFormed_iff (layoutOf_inWord hfile info hs.mem) hs.entry_eq
    constructor
    · intro hsound l' heq hall
      cases heq
      obtain ⟨l', heq, hsupplied⟩ := hsound (hok.mpr hall)
      cases heq
      rw [hloaded hall, allSupplied_iff] at hsupplied
      exact hgood.mp hsupplied
    · intro hfits hr
      refine ⟨l, rfl, ?_⟩
      rw [hloaded (hok.mp hr), allSupplied_iff]
      exact hgood.mpr (hfits l rfl (hok.mp hr))

/-- What the loaders accept is well formed exactly where the file's own sizes agree (safetensors) and
stay within 64 bits (GGUF). -/
theorem load_sound_iff (prior : TensorPool) (path : String) (file : ByteString) (mapped : Bool) :
    (SafetensorsSound file (loadSafetensors prior path file) ↔ SafetensorsFits file) ∧
      (SafetensorsSound file (loadSafetensorsMmap mapped prior path file) ↔ SafetensorsFits file) ∧
      (GgufSound false path file (loadGGUF prior path file) ↔ GgufFits false path file) ∧
      (GgufSound mapped path file (loadGGUFMmap mapped prior path file) ↔
        GgufFits mapped path file) := by
  refine ⟨safetensorsSound_iff (loadSafetensors_runs prior path file), ?_,
    ggufSound_iff false prior path file, ggufSound_iff mapped prior path file⟩
  obtain ⟨loader, hruns⟩ := loadSafetensorsMmap_runs mapped prior path file
  exact safetensorsSound_iff hruns

/-- A GGUF file without metadata whose one tensor has these dimensions and no bytes. -/
def wrappingFile : ByteString :=
  leBytes 4 kMagic ++ leBytes 4 kSupportedVersion ++ leBytes 8 1 ++ leBytes 8 0 ++
    ggufString (ascii "a") ++ leBytes 4 2 ++ leBytes 8 (2 ^ 32) ++ leBytes 8 (2 ^ 32) ++ leBytes 4 0 ++
    leBytes 8 0 ++ writePadding 31

def wrappingEntry : Entry := ⟨1, [4294967296, 4294967296], []⟩

/-- `2^32 * 2^32` elements wrap to none, so a shape of `2^64` elements is accepted without a byte. -/
theorem wrapping_accepted :
    (loadGGUF .empty "f" wrappingFile).2.find? (ascii "a") = some wrappingEntry ∧
      ¬ GgufSound false "f" wrappingFile (loadGGUF .empty "f" wrappingFile) := by
  have haccepted : (loadGGUF .empty "f" wrappingFile).1.toOption = some [] := by decide +kernel
  have hentry : (loadGGUF .empty "f" wrappingFile).2.find? (ascii "a") = some wrappingEntry := by
    decide +kernel
  refine ⟨hentry, fun hsound => ?_⟩
  cases hresult : (loadGGUF .empty "f" wrappingFile).1 with
  | error e =>
    rw [hresult] at haccepted
    cases haccepted
  | ok skipped =>
    obtain ⟨l, -, hsupplied⟩ := hsound ⟨skipped, hresult⟩
    obtain ⟨info, -, hwf⟩ := hsupplied _ ((SortedMap.find?_eq_some_iff _ _ _).mp hentry)
    obtain ⟨t, n, ht, hel, -, hdata⟩ := hwf.size
    have hfloat : fromOnnx wrappingEntry.dtype = some .f32 := by decide
    have hcount : elements wrappingEntry.shape = (2 ^ 64 : Nat) := by decide
    obtain rfl : t = .f32 := Option.some.inj (ht.symm.trans hfloat)
    obtain rfl : n = 2 ^ 64 := Int.ofNat.inj (hel.symm.trans hcount)
    exact absurd hdata (by decide)

end Onnxsim.Storage.HostileFiles
