import Onnxsim.Storage.Safetensors

namespace Onnxsim.Storage.HeaderReads

open List Lib.Bytes Lib.Readers Pool HeaderParser
open Safetensors

def NoSpace : ByteString → Prop := fun ys => ∀ b ∈ ys.head?, isSpace b = false
def NoDigit : ByteString → Prop := fun ys => ∀ b ∈ ys.head?, isDigit b = false

theorem noSpace_cons {b : Byte} (h : isSpace b = false) (ys : ByteString) : NoSpace (b :: ys) := by
  intro c hc
  simp only [head?_cons, Option.mem_def, Option.some.injEq] at hc
  exact hc ▸ h

theorem noDigit_cons {b : Byte} (h : isDigit b = false) (ys : ByteString) : NoDigit (b :: ys) := by
  intro c hc
  simp only [head?_cons, Option.mem_def, Option.some.injEq] at hc
  exact hc ▸ h

theorem reads_next (b : Byte) : Reads next [b] b Any := fun _ _ _ => rfl

theorem reads_expect (b : Byte) : Reads (expect b) [b] () Any := by
  intro pos ys _
  rw [expect, run_bind_ok (reads_next b pos ys trivial), if_pos rfl]
  rfl

theorem peek_run (pos : Nat) (b : Byte) (ys : ByteString) :
    peek ⟨pos, b :: ys⟩ = .ok (b, ⟨pos, b :: ys⟩) := rfl

theorem takeWhile_append_stop (p : Byte → Bool) (xs ys : ByteString) (hx : ∀ b ∈ xs, p b = true)
    (hy : ∀ b ∈ ys.head?, p b = false) :
    (xs ++ ys).takeWhile p = xs ∧ (xs ++ ys).dropWhile p = ys := by
  induction xs with
  | nil =>
    cases ys with
    | nil => exact ⟨rfl, rfl⟩
    | cons b ys =>
      have hb := hy b rfl
      simp [hb]
  | cons x xs ih =>
    obtain ⟨ht, hd⟩ := ih fun b hb => hx b (mem_cons_of_mem _ hb)
    have h := hx x mem_cons_self
    simp [h, ht, hd]

theorem reads_skipWhile (p : Byte → Bool) (xs : ByteString) (hx : ∀ b ∈ xs, p b = true) :
    Reads (skipWhile p) xs xs (fun ys => ∀ b ∈ ys.head?, p b = false) := by
  intro pos ys hy
  obtain ⟨ht, hd⟩ := takeWhile_append_stop p xs ys hx hy
  simp only [skipWhile, ht, hd]

theorem reads_skipWs : Reads skipWs [] () NoSpace := by
  rw [skipWs, ← append_nil []]
  exact (reads_skipWhile isSpace [] (by simp)).bind (reads_pure () NoSpace) fun _ h => h

theorem reads_withFuel {α : Type} {p : Nat → Parser α} {xs : ByteString} {a : α}
    {K : ByteString → Prop} (h : ∀ fuel, xs.length ≤ fuel → Reads (p fuel) xs a K) :
    Reads (withFuel p) xs a K := by
  intro pos ys hy
  rw [withFuel]
  exact h _ (by simp only [length_append]; omega) pos ys hy

theorem hexValue_hexDigit : ∀ d : Fin 16, hexValue (hexDigit d.val) = some d.val := by decide

theorem hexNumber_control (c : Byte) :
    hexNumber [48, 48, hexDigit (c.val / 16), hexDigit (c.val % 16)] = some c.val := by
  have hz : hexValue 48 = some 0 := by decide
  have hd := hexValue_hexDigit ⟨c.val / 16, by omega⟩
  have hm := hexValue_hexDigit ⟨c.val % 16, by omega⟩
  simp only at hd hm
  simp only [hexNumber, foldl_cons, foldl_nil, hz, hd, hm, bind, Option.bind, pure]
  congr 1
  omega

theorem parseStringBody_escape (c : Byte) (rest : ByteString) (pos : Nat) (out : ByteString) :
    parseStringBody (escapeByte c ++ rest) pos out =
      parseStringBody rest (pos + (escapeByte c).length) (out ++ [c]) := by
  by_cases h34 : c = 34
  · subst h34
    rw [parseStringBody.eq_def]
    rfl
  by_cases h92 : c = 92
  · subst h92
    rw [parseStringBody.eq_def]
    rfl
  by_cases h10 : c = 10
  · subst h10
    rw [parseStringBody.eq_def]
    rfl
  by_cases h13 : c = 13
  · subst h13
    rw [parseStringBody.eq_def]
    rfl
  by_cases h9 : c = 9
  · subst h9
    rw [parseStringBody.eq_def]
    rfl
  by_cases hc : c.val < 32
  · have h128 : c.val < 128 := by omega
    simp only [escapeByte, h34, h92, h10, h13, h9, hc, if_false, if_true]
    rw [parseStringBody.eq_def]
    simp [hexNumber_control, h128]
  · simp only [escapeByte, h34, h92, h10, h13, h9, hc, if_false]
    rw [parseStringBody.eq_def]
    simp [h34, h92]

theorem parseStringBody_escaped (s ys : ByteString) (pos : Nat) (out : ByteString) :
    parseStringBody (s.flatMap escapeByte ++ 34 :: ys) pos out =
      .ok (out ++ s, ⟨pos + (s.flatMap escapeByte).length + 1, ys⟩) := by
  induction s generalizing pos out with
  | nil =>
    rw [flatMap_nil, nil_append, parseStringBody.eq_def]
    simp
  | cons c s ih =>
    rw [flatMap_cons, append_assoc, parseStringBody_escape, ih]
    simp only [append_assoc, singleton_append, length_append]
    congr 3
    omega

theorem reads_parseString (s : ByteString) :
    Reads parseString (appendJsonEscaped [34] s ++ [34]) s Any := by
  intro pos ys _
  have hx : appendJsonEscaped [34] s ++ [34] ++ ys = [34] ++ (s.flatMap escapeByte ++ 34 :: ys) := by
    simp [appendJsonEscaped]
  rw [hx, parseString, run_bind_ok (reads_expect 34 pos _ trivial)]
  show parseStringBody (s.flatMap escapeByte ++ 34 :: ys) (pos + 1) [] = _
  rw [parseStringBody_escaped]
  simp only [appendJsonEscaped, nil_append, length_append, length_cons,
    length_nil]
  congr 3
  omega

theorem reads_plain (s : ByteString) (h : s.flatMap escapeByte = s) :
    Reads parseString (34 :: (s ++ [34])) s Any := by
  have hr := reads_parseString s
  rwa [appendJsonEscaped, h, append_assoc, singleton_append] at hr

theorem stoll_decimal (d : Int64) :
    stoll (decide (d.toInt < 0)) (decimal d.toInt.natAbs) = .ok d := by
  have hv : (if decide (d.toInt < 0) = true then -(digitsValue (decimal d.toInt.natAbs) : Int)
      else digitsValue (decimal d.toInt.natAbs)) = d.toInt := by
    rw [digitsValue_decimal]
    split
    · next h => have := of_decide_eq_true h; omega
    · next h => have : ¬ d.toInt < 0 := fun hn => h (decide_eq_true hn); omega
  have hlo := d.le_toInt
  have hhi := d.toInt_lt
  simp only [stoll, hv]
  rw [if_neg (decimal_ne_nil _), if_neg (by omega), Int64.ofInt_toInt]

theorem decimal_head_not_sign (n : Nat) : ∃ c cs, decimal n = c :: cs ∧ c ≠ 45 ∧ c ≠ 43 := by
  cases hd : decimal n with
  | nil => exact absurd hd (decimal_ne_nil n)
  | cons c cs =>
    have hc : isDigit c = true := decimal_isDigit (n := n) (by rw [hd]; exact mem_cons_self)
    refine ⟨c, cs, rfl, ?_, ?_⟩ <;> rintro rfl <;> exact absurd hc (by decide)

theorem reads_parseInt (d : Int64) : Reads parseInt (decimalInt d.toInt) d NoDigit := by
  intro pos ys hy
  have hdig : ∀ b ∈ decimal d.toInt.natAbs, isDigit b = true := fun b hb => decimal_isDigit hb
  have hst := stoll_decimal d
  by_cases hn : d.toInt < 0
  · rw [decide_eq_true hn] at hst
    rw [decimalInt, if_pos hn, parseInt, cons_append]
    have hsign : parseSign ⟨pos, 45 :: (decimal d.toInt.natAbs ++ ys)⟩ =
        .ok (some 45, ⟨pos + 1, decimal d.toInt.natAbs ++ ys⟩) := rfl
    rw [run_bind_ok hsign]
    rw [run_bind_ok (reads_skipWhile isDigit _ hdig (pos + 1) ys hy)]
    simp only [reduceCtorEq, false_and, if_false, decide_true, hst]
    simp only [length_cons, bind, Except.bind, pure, Except.pure]
    congr 3
    omega
  · rw [decide_eq_false hn] at hst
    obtain ⟨c, cs, hc, h45, h43⟩ := decimal_head_not_sign d.toInt.natAbs
    rw [decimalInt, if_neg hn, parseInt]
    have hsign : parseSign ⟨pos, decimal d.toInt.natAbs ++ ys⟩ =
        .ok (none, ⟨pos, decimal d.toInt.natAbs ++ ys⟩) := by
      simp [parseSign, hc, h45, h43]
    rw [run_bind_ok hsign]
    rw [run_bind_ok (reads_skipWhile isDigit _ hdig pos ys hy)]
    simp only [decimal_ne_nil, and_false, if_false, reduceCtorEq, decide_false, hst]
    rfl

end Onnxsim.Storage.HeaderReads

namespace Onnxsim.Storage.DescriptorReads

open List Lib.Bytes Lib.Readers Pool HeaderParser
open Safetensors HeaderReads

variable {α : Type} {K : ByteString → Prop} {xs : ByteString} {a : α}

theorem reads_skipWs_bind {f : Unit → Parser α} (hf : Reads (f ()) xs a K) (hx : ∀ ys, K ys → NoSpace (xs ++ ys)) :
    Reads (skipWs >>= f) xs a K := by
  have h := reads_skipWs.bind hf hx
  rwa [nil_append] at h

theorem joinComma_cons (s t : ByteString) (l : List ByteString) :
    joinComma (s :: t :: l) = s ++ 44 :: joinComma (t :: l) := rfl

theorem length_le_joinComma (l : List ByteString) : l.length ≤ (joinComma l).length + 1 := by
  induction l with
  | nil => exact Nat.zero_le _
  | cons s l ih =>
    cases l with
    | nil => simp [joinComma]
    | cons t l =>
      simp only [joinComma_cons, length_append, length_cons] at ih ⊢
      omega

theorem joinComma_head (b : Byte) (bs : ByteString) (l : List ByteString) :
    ∃ cs, joinComma ((b :: bs) :: l) = b :: cs := by
  cases l with
  | nil => exact ⟨bs, rfl⟩
  | cons t l => exact ⟨_, rfl⟩

theorem reads_peek_bind {f : Byte → Parser α} {b : Byte} (hf : Reads (f b) (b :: xs) a K) :
    Reads (peek >>= f) (b :: xs) a K := by
  intro pos ys hy
  rw [cons_append, run_bind_ok (peek_run pos b (xs ++ ys))]
  exact hf pos ys hy

theorem decimalInt_head (i : Int) :
    ∃ b bs, decimalInt i = b :: bs ∧ isSpace b = false ∧ b ≠ 93 := by
  obtain ⟨c, cs, hc, -, -⟩ := decimal_head_not_sign i.natAbs
  have hd : isDigit c = true := decimal_isDigit (n := i.natAbs) (by rw [hc]; exact mem_cons_self)
  have hdigit : ∀ c : Byte, isDigit c = true → isSpace c = false ∧ c ≠ 93 := by decide +kernel
  rw [decimalInt]
  split
  · exact ⟨45, _, rfl, by decide, by decide⟩
  · exact ⟨c, cs, hc, hdigit c hd⟩

theorem decimalInt_noSpace (i : Int) (ys : ByteString) : NoSpace (decimalInt i ++ ys) := by
  obtain ⟨b, bs, hb, hs, -⟩ := decimalInt_head i
  rw [hb]
  exact noSpace_cons hs _

theorem reads_parseIntArrayLoop (d : Int64) (ds out : List Int64) (fuel : Nat)
    (hfuel : ds.length < fuel) :
    Reads (parseIntArrayLoop fuel out)
      (joinComma ((d :: ds).map fun i => decimalInt i.toInt) ++ [93]) (out ++ d :: ds) Any := by
  induction ds generalizing d out fuel with
  | nil =>
    obtain ⟨fuel, rfl⟩ := Nat.exists_eq_succ_of_ne_zero (by omega : fuel ≠ 0)
    refine reads_skipWs_bind ?_ fun ys _ => ?_
    · refine (reads_parseInt d).bind ?_ fun ys _ => noDigit_cons (by decide) ys
      refine reads_skipWs_bind ?_ fun ys _ => noSpace_cons (by decide) ys
      exact (reads_next 93).bind (reads_pure _ Any) fun _ _ => trivial
    · rw [append_assoc]
      exact decimalInt_noSpace _ _
  | cons e ds ih =>
    obtain ⟨fuel, rfl⟩ := Nat.exists_eq_succ_of_ne_zero (by omega : fuel ≠ 0)
    have hrest := ih e (out ++ [d]) fuel (by simpa using hfuel)
    rw [append_assoc, singleton_append] at hrest
    rw [map_cons, map_cons, joinComma_cons, append_assoc, cons_append]
    refine reads_skipWs_bind ?_ fun ys _ => ?_
    · refine (reads_parseInt d).bind ?_ fun ys _ => noDigit_cons (by decide) _
      refine reads_skipWs_bind ?_ fun ys _ => noSpace_cons (by decide) _
      exact (reads_next 44).bind hrest fun _ _ => trivial
    · rw [append_assoc]
      exact decimalInt_noSpace _ _

theorem reads_parseIntArray (ds : List Int64) :
    Reads parseIntArray (91 :: (joinComma (ds.map fun i => decimalInt i.toInt) ++ [93])) ds Any := by
  rw [← singleton_append]
  refine (reads_expect 91).bind ?_ fun _ _ => trivial
  cases ds with
  | nil =>
    refine reads_skipWs_bind ?_ fun ys _ => noSpace_cons (by decide) _
    intro pos ys _
    rfl
  | cons d ds =>
    obtain ⟨b, bs, hb, hs, h93⟩ := decimalInt_head d.toInt
    obtain ⟨cs, hcs⟩ := joinComma_head b bs (ds.map fun i => decimalInt i.toInt)
    have hloop : Reads (withFuel fun fuel => parseIntArrayLoop fuel [])
        (joinComma ((d :: ds).map fun i => decimalInt i.toInt) ++ [93]) (d :: ds) Any := by
      refine reads_withFuel fun fuel hf => ?_
      refine reads_parseIntArrayLoop d ds [] fuel ?_
      have hl := length_le_joinComma ((d :: ds).map fun i => decimalInt i.toInt)
      simp only [length_map, length_cons, length_append, length_nil] at hl hf ⊢
      omega
    rw [map_cons, hb, hcs, cons_append] at hloop ⊢
    refine reads_skipWs_bind ?_ fun ys _ => noSpace_cons hs _
    refine reads_peek_bind ?_
    rwa [if_neg h93]

def member (key body : ByteString) : ByteString := appendJsonEscaped [34] key ++ 34 :: 58 :: body

theorem appendJsonEscaped_head (key ys : ByteString) :
    ∃ zs, appendJsonEscaped [34] key ++ ys = 34 :: zs := ⟨_, rfl⟩

theorem reads_parseKey (key : ByteString) :
    Reads parseKey (appendJsonEscaped [34] key ++ [34, 58]) key NoSpace := by
  have h := reads_parseString key
  rw [show ([34, 58] : ByteString) = [34] ++ [58] from rfl, ← append_assoc]
  refine reads_skipWs_bind ?_ fun ys _ => noSpace_cons (b := 34) (by decide) _
  refine h.bind ?_ fun _ _ => trivial
  refine reads_skipWs_bind ?_ fun ys _ => noSpace_cons (b := 58) (by decide) _
  rw [← append_nil [58]]
  refine (reads_expect 58).bind ?_ fun _ _ => trivial
  exact reads_skipWs_bind (reads_pure key NoSpace) fun ys hy => hy

theorem reads_round {β : Type} {value : ByteString → Parser β} {f : β → Byte → Parser α} {key body rest : ByteString}
    {b : β} {stop : Byte} (hbody : ∀ ys, NoSpace (body ++ ys)) (hstop : isSpace stop = false)
    (hvalue : Reads (value key) body b Any) (hrest : Reads (f b stop) rest a Any) :
    Reads (parseKey >>= fun key => value key >>= fun b => skipWs >>= fun _ => next >>= f b)
      (member key body ++ stop :: rest) a Any := by
  have hm : member key body ++ stop :: rest =
      (appendJsonEscaped [34] key ++ [34, 58]) ++ (body ++ ([stop] ++ rest)) := by
    simp [member]
  rw [hm]
  refine (reads_parseKey key).bind ?_ fun ys _ => ?_
  · refine hvalue.bind ?_ fun _ _ => trivial
    refine reads_skipWs_bind ?_ fun ys _ => noSpace_cons hstop _
    exact (reads_next stop).bind hrest fun _ _ => trivial
  · rw [append_assoc]
    exact hbody _

end Onnxsim.Storage.DescriptorReads

namespace Onnxsim.Storage.HeaderText

open List Lib.Bytes Lib.Readers Pool HeaderParser
open Safetensors HeaderReads DescriptorReads

def intArray (ds : List Int64) : ByteString :=
  91 :: (joinComma (ds.map fun i => decimalInt i.toInt) ++ [93])

def fields (entry : Entry) (b e : Int64) : ByteString :=
  member (ascii "dtype") (34 :: (toSafetensors entry.dtype ++ [34])) ++ 44 ::
    (member (ascii "shape") (intArray entry.shape) ++ 44 ::
      (member (ascii "data_offsets") (intArray [b, e]) ++ [125]))

variable {n b e : Nat} {dtype : Int}

theorem toInt_ofNat (h : n < 2 ^ 63) : (Int64.ofNat n).toInt = n :=
  Int64.toInt_ofNat_of_lt (by omega)

theorem decimalInt_ofNat (h : n < 2 ^ 63) : decimalInt (Int64.ofNat n).toInt = decimal n := by
  rw [toInt_ofNat h, decimalInt, if_neg (by omega), Int.natAbs_natCast]

theorem descriptor_eq (name : ByteString) (entry : Entry) (hb : b < 2 ^ 63) (he : e < 2 ^ 63) :
    descriptor name entry b e =
      member name (123 :: fields entry (Int64.ofNat b) (Int64.ofNat e)) := by
  have hopen : ascii "\":\x7b\"dtype\":\"" =
      34 :: 58 :: 123 :: (appendJsonEscaped [34] (ascii "dtype") ++ [34, 58, 34]) := by decide
  have hshape : ascii "\",\"shape\":[" =
      34 :: 44 :: (appendJsonEscaped [34] (ascii "shape") ++ [34, 58, 91]) := by decide
  have hoffsets : ascii "],\"data_offsets\":[" =
      93 :: 44 :: (appendJsonEscaped [34] (ascii "data_offsets") ++ [34, 58, 91]) := by decide
  have hclose : ascii "]\x7d" = [93, 125] := by decide
  rw [descriptor, hopen, hshape, hoffsets, hclose]
  simp only [fields, member, intArray, map_cons, map_nil, joinComma,
    decimalInt_ofNat hb, decimalInt_ofNat he, append_assoc, cons_append,
    nil_append]

theorem toSafetensors_plain (h : toSafetensors dtype ≠ []) :
    (toSafetensors dtype).flatMap escapeByte = toSafetensors dtype := by
  have htable : ∀ t ∈ dtypeTable, (ascii t.2.1).flatMap escapeByte = ascii t.2.1 := by decide
  obtain ⟨t, ht, -, he⟩ := find?_dtypeTable h
  rw [he]
  exact htable t ht

theorem reads_dtype (th : TensorHeader) (ho : Bool) (h : toSafetensors dtype ≠ []) :
    Reads (parseField (ascii "dtype") th ho) (34 :: (toSafetensors dtype ++ [34]))
      ({ th with dtype := toSafetensors dtype }, ho) Any := by
  rw [parseField, if_pos rfl, ← append_nil (34 :: _)]
  exact (reads_plain _ (toSafetensors_plain h)).bind (reads_pure _ Any) fun _ _ => trivial

theorem reads_shape (th : TensorHeader) (ho : Bool) (shape : List Int64) :
    Reads (parseField (ascii "shape") th ho) (intArray shape) ({ th with shape := shape }, ho)
      Any := by
  rw [parseField, if_neg (by decide), if_pos rfl, ← append_nil (intArray shape)]
  exact (reads_parseIntArray shape).bind (reads_pure _ Any) fun _ _ => trivial

theorem reads_offsets (th : TensorHeader) (ho : Bool) (hbe : b ≤ e) (he : e < 2 ^ 63) :
    Reads (parseField (ascii "data_offsets") th ho) (intArray [Int64.ofNat b, Int64.ofNat e])
      ({ th with beginOff := b, endOff := e }, true) Any := by
  rw [parseField, if_neg (by decide), if_neg (by decide), if_pos rfl,
    ← append_nil (intArray _)]
  refine (reads_parseIntArray _).bind ?_ fun _ _ => trivial
  have hb := toInt_ofNat (n := b) (by omega)
  simp only [hb, toInt_ofNat he, Int.toNat_natCast]
  rw [if_neg (by omega)]
  exact reads_pure _ Any

theorem reads_fields (name : ByteString) (entry : Entry) (hd : toSafetensors entry.dtype ≠ []) (hbe : b ≤ e)
    (he : e < 2 ^ 63) (fuel : Nat) (hfuel : 3 ≤ fuel) :
    Reads (parseTensorHeaderLoop fuel { name := name } false)
      (fields entry (Int64.ofNat b) (Int64.ofNat e))
      (⟨name, toSafetensors entry.dtype, entry.shape, b, e⟩, true) Any := by
  obtain ⟨fuel, rfl⟩ : ∃ n, fuel = n + 3 := ⟨fuel - 3, by omega⟩
  refine reads_round (fun ys => noSpace_cons (by decide) _) (by decide)
    (reads_dtype _ _ hd) ?_
  refine reads_round (fun ys => noSpace_cons (by decide) _) (by decide)
    (reads_shape _ _ entry.shape) ?_
  refine reads_round (fun ys => noSpace_cons (by decide) _) (by decide)
    (reads_offsets _ _ hbe he) ?_
  exact reads_pure _ Any

theorem reads_parseTensorHeader (name : ByteString) (entry : Entry) (hd : toSafetensors entry.dtype ≠ [])
    (hbe : b ≤ e) (he : e < 2 ^ 63) :
    Reads (parseTensorHeader name) (123 :: fields entry (Int64.ofNat b) (Int64.ofNat e))
      ⟨name, toSafetensors entry.dtype, entry.shape, b, e⟩ Any := by
  have hloop : Reads (withFuel fun fuel => parseTensorHeaderLoop fuel { name := name } false)
      (fields entry (Int64.ofNat b) (Int64.ofNat e))
      (⟨name, toSafetensors entry.dtype, entry.shape, b, e⟩, true) Any := by
    refine reads_withFuel fun fuel hf => reads_fields name entry hd hbe he fuel ?_
    simp only [fields, member, length_append, length_cons] at hf
    omega
  rw [← singleton_append]
  refine (reads_expect 123).bind ?_ fun _ _ => trivial
  refine reads_skipWs_bind ?_ fun ys _ => noSpace_cons (b := 34) (by decide) _
  refine reads_peek_bind (b := 34) ?_
  rw [if_neg (by decide)]
  have hcheck : Reads (if toSafetensors entry.dtype = [] ∨ true = false then
      fail "tensor descriptor missing dtype or data_offsets" else
        pure ⟨name, toSafetensors entry.dtype, entry.shape, b, e⟩) []
      (⟨name, toSafetensors entry.dtype, entry.shape, b, e⟩ : TensorHeader) Any := by
    simp only [hd, false_or, Bool.true_eq_false, if_false]
    exact reads_pure _ Any
  have h := hloop.bind (f := fun st => if st.1.dtype = [] ∨ st.2 = false then
      fail "tensor descriptor missing dtype or data_offsets" else pure st.1) hcheck
    fun _ _ => trivial
  rwa [append_nil] at h

end Onnxsim.Storage.HeaderText
