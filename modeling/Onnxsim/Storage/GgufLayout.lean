import Mathlib.Algebra.BigOperators.ModEq
import Onnxsim.Storage.Gguf

namespace Onnxsim.Storage.GgufReads

open List Lib.Bytes Lib.OrderedMaps Lib.Readers Pool
open GgufTypes Gguf

variable (file : ByteString) (path : String)

theorem reads_readBytes (what : String) (s : ByteString) :
    Reads (readBytes path what s.length) s s Any := by
  intro pos ys _
  rw [readBytes, if_neg (by simp), take_left, drop_left]

theorem reads_readLE {k n : Nat} (h : n < 256 ^ k) : Reads (readLE path k) (leBytes k n) n Any := by
  have hb := reads_readBytes path "unexpected end of file" (leBytes k n)
  rw [leBytes_length] at hb
  have hr := hb.bind (f := fun bytes => pure (ofLE bytes)) (reads_pure _ Any) fun _ _ => trivial
  rwa [append_nil, ofLE_leBytes_of_lt h] at hr

theorem reads_readGGUFString {s : ByteString} (h : s.length ≤ kMaxStringLen) :
    Reads (readGGUFString path) (ggufString s) s Any := by
  have hlt : s.length < 256 ^ 8 := by
    rw [kMaxStringLen] at h
    omega
  refine (reads_readLE path hlt).bind ?_ fun _ _ => trivial
  rw [if_neg (Nat.not_lt.mpr h)]
  exact reads_readBytes path _ s

theorem reads_metadata {α : Type} {p : ByteString × ByteString} {f : ByteString → Nat → FileReader α}
    {rest : ByteString} {a : α} (hkey : p.1.length ≤ kMaxStringLen)
    (hf : Reads (f p.1 typeString) (ggufString p.2 ++ rest) a Any) :
    Reads (readGGUFString path >>= fun key => readLE path 4 >>= f key) (metadataBytes p ++ rest) a
      Any := by
  rw [metadataBytes, append_assoc, append_assoc]
  refine (reads_readGGUFString path hkey).bind ?_ fun _ _ => trivial
  exact (reads_readLE path (by decide)).bind hf fun _ _ => trivial

structure Readable (p : ByteString × ByteString) : Prop where
  key : p.1.length ≤ kMaxStringLen
  value : p.2.length ≤ kMaxStringLen

theorem reads_readAlignment (alignment : Nat) (kvs : List (ByteString × ByteString))
    (h : ∀ p ∈ kvs, Readable p) :
    Reads (readAlignment file path kvs.length alignment) (kvs.flatMap metadataBytes) alignment
      Any := by
  induction kvs with
  | nil => exact reads_pure _ Any
  | cons p kvs ih =>
    have hp := h p mem_cons_self
    have hrest := ih fun q hq => h q (mem_cons_of_mem _ hq)
    have hskip : Reads (skipMetadataValue file path typeString) (ggufString p.2) none Any := by
      rw [skipMetadataValue, if_pos rfl, ← append_nil (ggufString p.2)]
      exact (reads_readGGUFString path hp.value).bind (reads_pure _ Any) fun _ _ => trivial
    rw [flatMap_cons]
    refine reads_metadata path hp.key (hskip.bind ?_ fun _ _ => trivial)
    simpa using hrest

theorem reads_readKv (kvs : List (ByteString × ByteString)) (h : ∀ p ∈ kvs, Readable p)
    (kv : SortedMap ByteString MetadataValue) :
    Reads (readKv file path kvs.length kv) (kvs.flatMap metadataBytes)
      (kvs.foldl (fun m p => m.insert p.1 (.string p.2)) kv) Any := by
  induction kvs generalizing kv with
  | nil => exact reads_pure _ Any
  | cons p kvs ih =>
    have hp := h p mem_cons_self
    have hvalue : Reads (readOneMetadataValue file path typeString) (ggufString p.2)
        (some (.string p.2)) Any := by
      rw [readOneMetadataValue, if_pos rfl, ← append_nil (ggufString p.2)]
      exact (reads_readGGUFString path hp.value).bind (reads_pure _ Any) fun _ _ => trivial
    refine reads_metadata path hp.key (hvalue.bind ?_ fun _ _ => trivial)
    exact ih (fun q hq => h q (mem_cons_of_mem _ hq)) _

abbrev Placed := ByteString × Entry × Nat × Nat

/-- What the reader's limits ask of one tensor info. -/
structure InfoReadable (t : Placed) : Prop where
  name : t.1.length ≤ kMaxStringLen
  rank : t.2.1.shape.length ≤ kMaxDims
  offset : t.2.2.1 < 2 ^ 64

def typeCode (entry : Entry) : Nat := ((fromOnnx entry.dtype).map code).getD 0

theorem typeCode_lt (entry : Entry) : typeCode entry < 256 := by
  rw [typeCode]
  cases fromOnnx entry.dtype with
  | none => decide
  | some t => exact code_lt t

def infoOf (t : Placed) : TensorInfo :=
  ⟨t.1, t.2.1.shape.reverse.map fun d => d.toUInt64.toNat, typeCode t.2.1, t.2.2.1⟩

theorem reads_readTensorInfo {t : Placed} (h : InfoReadable t) :
    Reads (readTensorInfo path) (infoBytes t.1 t.2.1 t.2.2.1) (infoOf t) Any := by
  have hrank := h.rank
  have hdims := reads_readMany (readLE path 8) (fun d : Int64 => leBytes 8 d.toUInt64.toNat)
    (fun d => d.toUInt64.toNat) t.2.1.shape.reverse fun d _ => reads_readLE path d.toUInt64.toNat_lt
  rw [length_reverse] at hdims
  simp only [infoBytes, append_assoc]
  refine (reads_readGGUFString path h.name).bind ?_ fun _ _ => trivial
  refine (reads_readLE path ?_).bind ?_ fun _ _ => trivial
  · rw [kMaxDims] at hrank
    omega
  rw [if_neg (Nat.not_lt.mpr hrank)]
  refine hdims.bind ?_ fun _ _ => trivial
  refine (reads_readLE path ?_).bind ?_ fun _ _ => trivial
  · have := typeCode_lt t.2.1
    rw [typeCode] at this
    omega
  rw [← append_nil (leBytes 8 _)]
  exact (reads_readLE path h.offset).bind (reads_pure _ Any) fun _ _ => trivial

def countsBytes (m n : Nat) : ByteString :=
  leBytes 4 kMagic ++ (leBytes 4 kSupportedVersion ++ (leBytes 8 m ++ leBytes 8 n))

theorem reads_readCounts {m n : Nat} (hm : m ≤ kMaxTensorCount) (hn : n ≤ kMaxMetadataCount) :
    Reads (readCounts path) (countsBytes m n) (m, n) Any := by
  have hm' : m < 256 ^ 8 := by
    rw [kMaxTensorCount] at hm
    omega
  have hn' : n < 256 ^ 8 := by
    rw [kMaxMetadataCount] at hn
    omega
  refine (reads_readLE path (by decide)).bind ?_ fun _ _ => trivial
  refine (reads_readLE path (by decide)).bind ?_ fun _ _ => trivial
  refine (reads_readLE path hm').bind ?_ fun _ _ => trivial
  rw [← append_nil (leBytes 8 n)]
  refine (reads_readLE path hn').bind ?_ fun _ _ => trivial
  rw [if_neg (Nat.not_lt.mpr hm), if_neg (Nat.not_lt.mpr hn)]
  exact reads_pure _ Any

end Onnxsim.Storage.GgufReads

namespace Onnxsim.Storage.GgufLayout

open List Lib.Bytes Lib.OrderedMaps Lib.Readers Pool
open GgufTypes Gguf GgufReads

def elements (shape : List Int64) : Int := (shape.map Int64.toInt).prod

/-- An entry of a type ggml can store, with the whole number of blocks its shape asks for. -/
def WellSized (entry : Entry) : Prop :=
  ∃ t n, fromOnnx entry.dtype = some t ∧ elements entry.shape = (n : Nat) ∧ (block t).1 ∣ n ∧
    entry.data.length = n / (block t).1 * (block t).2

theorem elementCount_eq (ne : List Nat) : elementCount ne = ne.prod % 2 ^ 64 := by
  have hfold : ∀ acc, ne.foldl (fun acc d => acc * d % 2 ^ 64) (acc % 2 ^ 64) =
      acc * ne.prod % 2 ^ 64 := by
    induction ne with
    | nil => simp
    | cons d ne ih =>
      intro acc
      rw [foldl_cons, Nat.mod_mul_mod, ih, prod_cons, Nat.mul_assoc]
  have h := hfold 1
  rwa [Nat.one_mul] at h

theorem toInt64_modEq (n : Nat) : (UInt64.ofNat n).toInt64.toInt ≡ n [ZMOD 2 ^ 64] := by
  rw [UInt64.toInt64_ofNat', Int64.toInt_ofNat']
  exact Int.bmod_emod

theorem toInt64_toUInt64 (d : Int64) : (UInt64.ofNat d.toUInt64.toNat).toInt64 = d := by
  rw [UInt64.ofNat_toNat]
  rfl

theorem onnxShape_ne (shape : List Int64) :
    onnxShape (shape.reverse.map fun d => d.toUInt64.toNat) = shape := by
  rw [onnxShape, ← map_reverse, reverse_reverse, List.map_map]
  conv_rhs => rw [← List.map_id shape]
  exact map_congr_left fun d _ => toInt64_toUInt64 d

theorem elements_onnxShape (ne : List Nat) :
    elements (onnxShape ne) ≡ elementCount ne [ZMOD 2 ^ 64] := by
  have hprod : elements (onnxShape ne) ≡ ((ne.reverse.map (Nat.cast : Nat → Int)).prod) [ZMOD
      2 ^ 64] := by
    rw [elements, onnxShape, List.map_map]
    exact Int.ModEq.listProd_map fun n _ => toInt64_modEq n
  have hcast : (ne.reverse.map (Nat.cast : Nat → Int)).prod = (ne.prod : Int) := by
    rw [map_reverse, prod_reverse, Nat.cast_list_prod]
  rw [hcast] at hprod
  refine hprod.trans ?_
  rw [elementCount_eq]
  exact (Int.mod_modEq _ _).symm

variable {n running pad : Nat} {entry : Entry} {t : GgmlType}

theorem elementCount_of_elements {ne : List Nat} (h : elements (onnxShape ne) = n) :
    elementCount ne = n % 2 ^ 64 := by
  have hm := elements_onnxShape ne
  rw [h] at hm
  have hlt : elementCount ne < 2 ^ 64 := by
    rw [elementCount_eq]
    exact Nat.mod_lt _ (by decide)
  have hn : n ≡ elementCount ne [MOD 2 ^ 64] := by exact_mod_cast hm
  rw [Nat.ModEq, Nat.mod_eq_of_lt hlt] at hn
  exact hn.symm

theorem alignUp_eq {v : Nat} (h : v < 2 ^ 63) :
    ∃ pad, pad < kDefaultAlignment ∧ alignUp v kDefaultAlignment = v + pad := by
  rw [alignUp, if_neg (by decide), kDefaultAlignment]
  split
  · exact ⟨0, by omega, rfl⟩
  · exact ⟨32 - v % 32, by omega, by omega⟩

theorem placeFrom_cons {p : ByteString × Entry} {l : List (ByteString × Entry)}
    (ha : alignUp running kDefaultAlignment = running + pad) (h : running + pad + p.2.data.length < 2 ^ 64) :
    placeFrom running (p :: l) = (p.1, p.2, running + pad, running + pad + p.2.data.length) ::
      placeFrom (running + pad + p.2.data.length) l := by
  simp only [placeFrom, ha, Nat.mod_eq_of_lt h]

theorem dataFrom_cons {endOff : Nat} {name : ByteString} {ts : List Placed} (hr : running + pad < 2 ^ 64) :
    dataFrom running ((name, entry, running + pad, endOff) :: ts) =
      writePadding pad ++ (entry.data ++ dataFrom endOff ts) := by
  have hpad : (running + pad + (2 ^ 64 - running)) % 2 ^ 64 = pad := by omega
  rw [dataFrom, hpad, append_assoc]

theorem tryTotalBytes_wellSized (hdvd : (block t).1 ∣ n) (hdata : entry.data.length = n / (block t).1 * (block t).2)
    (hlt : entry.data.length < 2 ^ 64) :
    tryTotalBytes t n = some entry.data.length := by
  rw [tryTotalBytes_eq, blockBytesOf, if_neg (by simpa using Nat.mod_eq_zero_of_dvd hdvd), ← hdata,
    Nat.mod_eq_of_lt hlt]

theorem addInfos_cons {path : String} {file : ByteString} {dataStart nbytes : Nat} {info : TensorInfo}
    {rest : List TensorInfo} {skipped : List ByteString} {pool : TensorPool} (ht : ofCode info.ggmlType = some t)
    (hn : tryTotalBytes t (elementCount info.ne) = some nbytes) (hlt : dataStart + info.offset < 2 ^ 64)
    (hfile : dataStart + info.offset + nbytes ≤ file.length) :
    addInfos path file dataStart (info :: rest) skipped pool =
      addInfos path file dataStart rest skipped (pool.insert info.name
        ⟨toOnnx t, onnxShape info.ne, (file.drop (dataStart + info.offset)).take nbytes⟩) := by
  rw [addInfos, ht]
  simp only [hn, Nat.mod_eq_of_lt hlt]
  rw [if_neg (by omega)]

theorem addInfos_placeFrom (path : String) (head : ByteString) (l : List (ByteString × Entry))
    (pre : ByteString) (acc : TensorPool) (hsized : ∀ p ∈ l, WellSized p.2)
    (hcount : ∀ p ∈ l, elements p.2.shape < 2 ^ 64)
    (hsize : (head ++ (pre ++ dataFrom pre.length (placeFrom pre.length l))).length < 2 ^ 63) :
    addInfos path (head ++ (pre ++ dataFrom pre.length (placeFrom pre.length l))) head.length
      ((placeFrom pre.length l).map infoOf) [] acc =
        (.ok [], l.foldl (fun acc p => acc.insert p.1 p.2) acc) := by
  induction l generalizing pre acc with
  | nil => rfl
  | cons p l ih =>
    obtain ⟨t, n, hdt, hel, hdvd, hdata⟩ := hsized p mem_cons_self
    have hlen : ∀ xs : ByteString, (head ++ (pre ++ xs)).length =
        head.length + (pre.length + xs.length) := fun xs => by simp only [length_append]
    have hpre : pre.length < 2 ^ 63 := by
      rw [hlen] at hsize
      omega
    obtain ⟨pad, hpad, ha⟩ := alignUp_eq hpre
    rw [kDefaultAlignment] at hpad
    have hdlen : pre.length + p.2.data.length < 2 ^ 63 := by
      rw [placeFrom, ha, hlen, dataFrom] at hsize
      simp only [length_append] at hsize
      omega
    rw [placeFrom_cons ha (by omega), dataFrom_cons (by omega)] at hsize ⊢
    have hzero : (writePadding pad).length = pad := length_replicate
    have hnext : (pre ++ (writePadding pad ++ p.2.data)).length =
        pre.length + pad + p.2.data.length := by
      simp only [length_append, hzero]
      omega
    have hrest := ih (pre ++ (writePadding pad ++ p.2.data)) (acc.insert p.1 p.2)
      (fun q hq => hsized q (mem_cons_of_mem _ hq))
      (fun q hq => hcount q (mem_cons_of_mem _ hq))
    rw [hnext] at hrest
    simp only [append_assoc] at hrest
    have hn : n < 2 ^ 64 := by
      have := hcount p mem_cons_self
      rw [hel] at this
      omega
    have hcnt : elementCount (infoOf (p.1, p.2, pre.length + pad, pre.length + pad +
        p.2.data.length)).ne = n := by
      rw [elementCount_of_elements (n := n), Nat.mod_eq_of_lt hn]
      rw [infoOf, onnxShape_ne, hel]
    have htype : ofCode (infoOf (p.1, p.2, pre.length + pad, pre.length + pad +
        p.2.data.length)).ggmlType = some t := by
      rw [infoOf, typeCode, hdt]
      exact ofCode_code t
    have hbound : head.length + (pre.length + pad) + p.2.data.length ≤
        (head ++ (pre ++ (writePadding pad ++ (p.2.data ++ dataFrom (pre.length + pad +
          p.2.data.length) (placeFrom (pre.length + pad + p.2.data.length) l))))).length := by
      simp only [length_append, hzero]
      omega
    have hbytes : tryTotalBytes t (elementCount (infoOf (p.1, p.2, pre.length + pad, pre.length + pad +
        p.2.data.length)).ne) = some p.2.data.length := by
      rw [hcnt]
      exact tryTotalBytes_wellSized hdvd hdata (by omega)
    rw [map_cons, addInfos_cons htype hbytes, foldl_cons]
    · have hdrop : ∀ xs : ByteString, ((head ++ (pre ++ (writePadding pad ++ (p.2.data ++ xs)))).drop
          (head.length + (pre.length + pad))).take p.2.data.length = p.2.data := by
        intro xs
        have happ : head ++ (pre ++ (writePadding pad ++ (p.2.data ++ xs))) =
            (head ++ (pre ++ writePadding pad)) ++ (p.2.data ++ xs) := by
          simp only [append_assoc]
        rw [happ, drop_left' (by simp only [length_append, hzero]), take_left]
      have hentry : (⟨toOnnx t, onnxShape (infoOf (p.1, p.2, pre.length + pad, pre.length + pad +
          p.2.data.length)).ne, p.2.data⟩ : Entry) = p.2 := by
        rw [infoOf, onnxShape_ne, toOnnx_fromOnnx hdt]
      simp only [infoOf] at hentry ⊢
      rw [hdrop, hentry]
      exact hrest hsize
    · simp only [infoOf]
      omega
    · exact hbound

end Onnxsim.Storage.GgufLayout
