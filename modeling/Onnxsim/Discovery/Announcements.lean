import Onnxsim.Lib.Searching
import Onnxsim.Storage.Pool

namespace Onnxsim.Discovery.Text

open List Lib.Bytes Lib.Searching Storage.Pool

abbrev quote : Byte := 34
abbrev backslash : Byte := 92
abbrev colon : Byte := 58
abbrev comma : Byte := 44

def hexDigit (n : Nat) : Byte := if n < 10 then Fin.ofNat 256 (48 + n) else Fin.ofNat 256 (87 + n)

def escapeByte (ch : Byte) : ByteString :=
  if ch = quote then [backslash, quote]
  else if ch = backslash then [backslash, backslash]
  else if ch = 8 then [backslash, 98]
  else if ch = 12 then [backslash, 102]
  else if ch = 10 then [backslash, 110]
  else if ch = 13 then [backslash, 114]
  else if ch = 9 then [backslash, 116]
  else if ch.val < 32 then backslash :: 117 :: 48 :: 48 :: [hexDigit (ch.val / 16), hexDigit (ch.val % 16)]
  else [ch]

def json_escape (value : ByteString) : ByteString := value.flatMap escapeByte

/-- What a letter after a backslash stands for; one that is not known is kept with its backslash. -/
def unescapeByte (c : Byte) : ByteString :=
  if c = quote then [quote]
  else if c = backslash then [backslash]
  else if c = 47 then [47]
  else if c = 98 then [8]
  else if c = 102 then [12]
  else if c = 110 then [10]
  else if c = 114 then [13]
  else if c = 116 then [9]
  else [backslash, c]

/-- The letters up to the closing quote, and nothing where there is none. -/
def readString : Bool → ByteString → ByteString → ByteString
  | _, _, [] => []
  | false, value, c :: cs =>
    if c = quote then value
    else if c = backslash then readString true value cs
    else readString false (value ++ [c]) cs
  | true, value, c :: cs => readString false (value ++ unescapeByte c) cs

def marker (key ending : ByteString) : ByteString := quote :: (key ++ quote :: colon :: ending)

def stringMarker (key : ByteString) : ByteString := marker key [quote]

def valueMarker (key : ByteString) : ByteString := marker key []

def json_string (json key : ByteString) : ByteString :=
  match after (stringMarker key) json with
  | none => []
  | some value => readString false [] value

def isSpace (c : Byte) : Bool := c = 32 || 9 ≤ c.val && c.val ≤ 13

/-- A `long` cut to an `int`, after the value was held within the range of a `long`. -/
def toInt (i : Int) : Int := (max (-2 ^ 63) (min i (2 ^ 63 - 1))).bmod (2 ^ 32)

def atoi (s : ByteString) : Int :=
  match s.dropWhile isSpace with
  | [] => 0
  | c :: cs =>
    if c = 45 then toInt (-digitsValue (cs.takeWhile isDigit))
    else if c = 43 then toInt (digitsValue (cs.takeWhile isDigit))
    else toInt (digitsValue ((c :: cs).takeWhile isDigit))

def json_int (json key : ByteString) : Int :=
  match after (valueMarker key) json with
  | none => 0
  | some value => atoi value

/-- A missing field and any other value both read as false, as no caller passes a fallback. -/
def json_bool (json key : ByteString) : Bool :=
  match after (valueMarker key) json with
  | none => false
  | some value => ascii "true" <+: value

/-- A control character without a letter of its own, which is written as `\u00` and two digits. -/
def Hexed (ch : Byte) : Prop := ch.val < 32 ∧ ch ≠ 8 ∧ ch ≠ 12 ∧ ch ≠ 10 ∧ ch ≠ 13 ∧ ch ≠ 9

instance (ch : Byte) : Decidable (Hexed ch) := inferInstanceAs (Decidable (_ ∧ _))

def readBack (ch : Byte) : ByteString := if Hexed ch then escapeByte ch else [ch]

theorem escapeByte_cases (ch : Byte) :
    escapeByte ch = [ch] ∧ ch ≠ quote ∧ ch ≠ backslash ∧ readBack ch = [ch] ∨
      ∃ e w, escapeByte ch = backslash :: e :: w ∧ quote ∉ w ∧ backslash ∉ w ∧
        readBack ch = unescapeByte e ++ w ∧ (e = quote → w = []) := by
  have h : escapeByte ch = [ch] ∧ ch ≠ quote ∧ ch ≠ backslash ∧ readBack ch = [ch] ∨
      escapeByte ch = backslash :: (escapeByte ch).getD 1 0 :: (escapeByte ch).drop 2 ∧
        quote ∉ (escapeByte ch).drop 2 ∧ backslash ∉ (escapeByte ch).drop 2 ∧
        readBack ch = unescapeByte ((escapeByte ch).getD 1 0) ++ (escapeByte ch).drop 2 ∧
        ((escapeByte ch).getD 1 0 = quote → (escapeByte ch).drop 2 = []) := by
    revert ch
    decide +kernel
  exact h.imp_right fun h => ⟨_, _, h⟩

theorem length_readBack (ch : Byte) : (readBack ch).length = 1 + 5 * (if Hexed ch then 1 else 0) := by
  revert ch
  decide +kernel

theorem flatMap_readBack_iff (s : ByteString) : s.flatMap readBack = s ↔ ∀ ch ∈ s, ¬ Hexed ch := by
  constructor
  · intro h ch hch hx
    have hlen : (s.flatMap readBack).length = s.length + 5 * s.countP (Hexed ·) := by
      clear h hch
      induction s with
      | nil => rfl
      | cons c s ih =>
        rw [flatMap_cons, length_append, length_readBack, ih, length_cons, countP_cons]
        simp only [decide_eq_true_eq]
        omega
    have hpos : 0 < s.countP (Hexed ·) := countP_pos_iff.mpr ⟨ch, hch, decide_eq_true hx⟩
    rw [h] at hlen
    omega
  · intro h
    induction s with
    | nil => rfl
    | cons c s ih =>
      rw [flatMap_cons, ih fun ch hch => h ch (mem_cons_of_mem _ hch), readBack,
        if_neg (h c mem_cons_self)]
      rfl

theorem readString_plain {w : ByteString} (hq : quote ∉ w) (hb : backslash ∉ w) (v rest : ByteString) :
    readString false v (w ++ rest) = readString false (v ++ w) rest := by
  induction w generalizing v with
  | nil => rw [nil_append, append_nil]
  | cons c w ih =>
    rw [mem_cons, not_or] at hq hb
    rw [cons_append, readString, if_neg (Ne.symm hq.1), if_neg (Ne.symm hb.1), ih hq.2 hb.2, append_assoc]
    rfl

theorem readString_json_escape (s v rest : ByteString) :
    readString false v (json_escape s ++ quote :: rest) = v ++ s.flatMap readBack := by
  induction s generalizing v with
  | nil =>
    rw [flatMap_nil, append_nil]
    rfl
  | cons c s ih =>
    rw [json_escape, flatMap_cons, ← json_escape, flatMap_cons, append_assoc]
    obtain ⟨he, hq, hb, hr⟩ | ⟨e, w, he, hq, hb, hr, -⟩ := escapeByte_cases c
    · have hc : readString false v ([c] ++ (json_escape s ++ quote :: rest)) =
          readString false (v ++ [c]) (json_escape s ++ quote :: rest) := by
        apply readString_plain <;> simp [Ne.symm hq, Ne.symm hb]
      rw [he, hr, hc, ih, append_assoc]
    · have hc : readString false v (backslash :: e :: w ++ (json_escape s ++ quote :: rest)) =
          readString false (v ++ unescapeByte e) (w ++ (json_escape s ++ quote :: rest)) := rfl
      rw [he, hc, readString_plain hq hb, ih, hr, append_assoc, append_assoc, append_assoc]

variable {key key' ending value s rest : ByteString} {c x : Byte}

/-- A key as it stands in a search: no quote, no backslash and no mark that ends a value. -/
def Plain (key : ByteString) : Prop := quote ∉ key ∧ backslash ∉ key ∧ comma ∉ key ∧ colon ∉ key ∧ key ≠ []

instance (key : ByteString) : Decidable (Plain key) := inferInstanceAs (Decidable (_ ∧ _))

theorem not_prefix_json_escape (hq : quote ∉ key) (hb : backslash ∉ key) (hx : x ≠ colon) :
    ¬ key ++ quote :: colon :: ending <+: json_escape s ++ quote :: x :: rest := by
  intro h
  induction s generalizing key with
  | nil =>
    cases key with
    | nil =>
      have hp := (cons_prefix_cons.mp h).2
      exact hx (cons_prefix_cons.mp hp).1.symm
    | cons k key => exact hq (mem_cons.mpr (.inl (cons_prefix_cons.mp h).1.symm))
  | cons c s ih =>
    rw [json_escape, flatMap_cons, ← json_escape, append_assoc] at h
    obtain ⟨he, hcq, -⟩ | ⟨e, w, he, -⟩ := escapeByte_cases c
    · rw [he] at h
      cases key with
      | nil => exact hcq (cons_prefix_cons.mp h).1.symm
      | cons k key =>
        exact ih (fun hm => hq (mem_cons_of_mem _ hm)) (fun hm => hb (mem_cons_of_mem _ hm))
          (cons_prefix_cons.mp h).2
    · rw [he] at h
      cases key with
      | nil => exact absurd (cons_prefix_cons.mp h).1 (by decide)
      | cons k key => exact hb (mem_cons.mpr (.inl (cons_prefix_cons.mp h).1.symm))

theorem after_quote (h : ¬ key ++ quote :: colon :: ending <+: rest) :
    after (marker key ending) (quote :: rest) = after (marker key ending) rest :=
  after_cons_of_not fun hp => h (cons_prefix_cons.mp hp).2

theorem not_prefix_cons (hk : Plain key) (hc : c ∉ key) : ¬ key ++ quote :: colon :: ending <+: c :: rest := by
  intro h
  cases key with
  | nil => exact hk.2.2.2.2 rfl
  | cons k key => exact hc (mem_cons.mpr (.inl (cons_prefix_cons.mp h).1.symm))

theorem after_json_escape (hk : Plain key) :
    after (marker key ending) (json_escape s ++ quote :: comma :: rest) =
      after (marker key ending) (quote :: comma :: rest) := by
  induction s with
  | nil => rfl
  | cons c s ih =>
    rw [json_escape, flatMap_cons, ← json_escape, append_assoc]
    obtain ⟨he, hcq, -⟩ | ⟨e, w, he, hw, -, -, hend⟩ := escapeByte_cases c
    · rw [he, ← ih]
      exact after_cons_of_ne (Ne.symm hcq)
    · have hskip : after (marker key ending) (w ++ (json_escape s ++ quote :: comma :: rest)) =
          after (marker key ending) (quote :: comma :: rest) := by
        rw [← ih]
        exact after_append_of_notMem hw
      rw [he, cons_append, cons_append, ← hskip]
      refine (after_cons_of_ne (by decide)).trans ?_
      by_cases heq : e = quote
      · -- an escaped quote opens no key, as what follows it is escaped too
        rw [heq, hend heq]
        exact after_quote (not_prefix_json_escape hk.1 hk.2.1 (by decide))
      · exact after_cons_of_ne (Ne.symm heq)

/-- A field of a flat object that is not its last one, with all that follows it. -/
def field (key value rest : ByteString) : ByteString :=
  quote :: (key ++ quote :: colon :: (value ++ comma :: rest))

def quoted (s : ByteString) : ByteString := quote :: (json_escape s ++ [quote])

theorem after_field_of_ne (hk : Plain key) (hk' : quote ∉ key') (hne : key ≠ key') :
    after (marker key ending) (field key' value rest) = after (marker key ending) (value ++ comma :: rest) := by
  have hopen : ¬ key ++ quote :: colon :: ending <+: key' ++ quote :: colon :: (value ++ comma :: rest) :=
    fun h => hne (prefix_of_ended hk.1 hk' h)
  have hkey : after (marker key ending) (key' ++ quote :: colon :: (value ++ comma :: rest)) =
      after (marker key ending) (quote :: colon :: (value ++ comma :: rest)) := after_append_of_notMem hk'
  rw [field, after_quote hopen, hkey, after_quote (not_prefix_cons hk hk.2.2.2.1)]
  exact after_cons_of_ne (by decide)

theorem after_plain_field (hk : Plain key) (hk' : quote ∉ key') (hne : key ≠ key') (hv : quote ∉ value) :
    after (marker key ending) (field key' value rest) = after (marker key ending) rest := by
  rw [after_field_of_ne hk hk' hne]
  refine Eq.trans (after_append_of_notMem hv) ?_
  exact after_cons_of_ne (by decide)

theorem after_quoted_field (hk : Plain key) (hk' : quote ∉ key') (hne : key ≠ key') :
    after (marker key ending) (field key' (quoted s) rest) = after (marker key ending) rest := by
  have happ : quoted s ++ comma :: rest = quote :: (json_escape s ++ quote :: comma :: rest) := by
    rw [quoted, cons_append, append_assoc]
    rfl
  rw [after_field_of_ne hk hk' hne, happ, after_quote (not_prefix_json_escape hk.1 hk.2.1 (by decide)),
    after_json_escape hk, after_quote (not_prefix_cons hk hk.2.2.1)]
  exact after_cons_of_ne (by decide)

theorem after_valueMarker : after (valueMarker key) (field key value rest) = some (value ++ comma :: rest) := by
  have happ : field key value rest = valueMarker key ++ (value ++ comma :: rest) := by
    simp [field, valueMarker, marker]
  rw [happ]
  exact after_marker (cons_ne_nil _ _)

theorem after_stringMarker :
    after (stringMarker key) (field key (quoted s) rest) = some (json_escape s ++ quote :: comma :: rest) := by
  have happ : field key (quoted s) rest = stringMarker key ++ (json_escape s ++ quote :: comma :: rest) := by
    simp [field, stringMarker, marker, quoted]
  rw [happ]
  exact after_marker (cons_ne_nil _ _)

variable {i : Int}

theorem toInt_of_int (hlo : -2 ^ 31 ≤ i) (hhi : i < 2 ^ 31) : toInt i = i := by
  rw [toInt, min_eq_left (by omega), max_eq_right (by omega)]
  exact Int.bmod_eq_of_le (by omega) (by omega)

theorem takeWhile_decimal (n : Nat) (hc : isDigit c = false) :
    (decimal n ++ c :: rest).takeWhile isDigit = decimal n := by
  rw [takeWhile_append_of_pos fun _ => decimal_isDigit, takeWhile_cons, hc, if_neg Bool.false_ne_true,
    append_nil]

theorem isSpace_of_isDigit {d : Byte} (h : isDigit d = true) : isSpace d = false ∧ d ≠ 45 ∧ d ≠ 43 := by
  revert d
  decide +kernel

theorem atoi_decimalInt (hlo : -2 ^ 31 ≤ i) (hhi : i < 2 ^ 31) (hc : isDigit c = false) :
    atoi (decimalInt i ++ c :: rest) = i := by
  by_cases hi : i < 0
  · have hneg : decimalInt i ++ c :: rest = 45 :: (decimal i.natAbs ++ c :: rest) := by
      rw [decimalInt, if_pos hi]
      rfl
    have hdrop : (45 :: (decimal i.natAbs ++ c :: rest)).dropWhile isSpace = 45 :: (decimal i.natAbs ++ c :: rest) :=
      dropWhile_cons_of_neg (by decide)
    simp only [hneg, atoi, hdrop, if_true, takeWhile_decimal _ hc, digitsValue_decimal]
    rw [show -(i.natAbs : Int) = i by omega, toInt_of_int hlo hhi]
  · obtain ⟨d, ds, hd⟩ := exists_cons_of_ne_nil (decimal_ne_nil i.natAbs)
    have hdig : isDigit d = true := decimal_isDigit (hd ▸ mem_cons_self)
    obtain ⟨hsp, hm, hp⟩ := isSpace_of_isDigit hdig
    have htake : (decimal i.natAbs ++ c :: rest).takeWhile isDigit = decimal i.natAbs := takeWhile_decimal _ hc
    have hval := digitsValue_decimal i.natAbs
    rw [hd] at htake hval
    have hdrop : (d :: (ds ++ c :: rest)).dropWhile isSpace = d :: (ds ++ c :: rest) :=
      dropWhile_cons_of_neg (by simp [hsp])
    rw [cons_append] at htake
    rw [decimalInt, if_neg hi, hd, cons_append]
    simp only [atoi, hdrop, if_neg hm, if_neg hp, htake, hval]
    rw [show (i.natAbs : Int) = i by omega, toInt_of_int hlo hhi]

end Onnxsim.Discovery.Text

namespace Onnxsim.Discovery.Announcements

open Lib.Bytes Lib.Searching Storage.Pool Text

def boolText (b : Bool) : ByteString := if b then ascii "true" else ascii "false"

def graphHint : Option Bool → ByteString
  | none => []
  | some b => ascii ",\"graph_execution\":" ++ boolText b

/-- The text that `announce` puts together. -/
def announcement (runner_id advertise_host : ByteString) (port : Int) (target : ByteString) (graph : Option Bool)
    (ttl_ms : Int) : ByteString :=
  ascii "\x7b\"schema_version\":1,\"runner_id\":\"" ++ json_escape runner_id ++ ascii "\",\"host\":\"" ++
    json_escape advertise_host ++ ascii "\",\"port\":" ++ decimalInt port ++ ascii ",\"target\":\"" ++
    json_escape target ++ ascii "\",\"transport\":\"onnx-remote-v5\",\"ready\":true" ++ graphHint graph ++
    ascii ",\"ttl_ms\":" ++ decimalInt ttl_ms ++
    ascii ",\"profiling\":[\"off\",\"summary\",\"detailed\"]\x7d"

def profiling : ByteString := ascii "\"profiling\":[\"off\",\"summary\",\"detailed\"]\x7d"

def hintField : Option Bool → ByteString → ByteString
  | none, rest => rest
  | some b, rest => field (ascii "graph_execution") (boolText b) rest

variable (runner_id advertise_host target : ByteString) (port ttl_ms : Int) (graph : Option Bool)

def fields : ByteString :=
  123 :: field (ascii "schema_version") (ascii "1") (field (ascii "runner_id") (quoted runner_id)
    (field (ascii "host") (quoted advertise_host) (field (ascii "port") (decimalInt port)
      (field (ascii "target") (quoted target) (field (ascii "transport") (quoted (ascii "onnx-remote-v5"))
        (field (ascii "ready") (boolText true) (hintField graph
          (field (ascii "ttl_ms") (decimalInt ttl_ms) profiling))))))))

theorem announcement_eq_fields :
    announcement runner_id advertise_host port target graph ttl_ms =
      fields runner_id advertise_host target port ttl_ms graph := by
  have h1 : ascii "\x7b\"schema_version\":1,\"runner_id\":\"" = 123 :: quote :: (ascii "schema_version" ++
      quote :: colon :: (ascii "1" ++ comma :: quote :: (ascii "runner_id" ++ [quote, colon, quote]))) := by
    decide
  have h2 : ascii "\",\"host\":\"" = quote :: comma :: quote :: (ascii "host" ++ [quote, colon, quote]) := by
    decide
  have h3 : ascii "\",\"port\":" = quote :: comma :: quote :: (ascii "port" ++ [quote, colon]) := by
    decide
  have h4 : ascii ",\"target\":\"" = comma :: quote :: (ascii "target" ++ [quote, colon, quote]) := by
    decide
  have h5 : ascii "\",\"transport\":\"onnx-remote-v5\",\"ready\":true" = quote :: comma :: quote ::
      (ascii "transport" ++ quote :: colon :: quote :: (json_escape (ascii "onnx-remote-v5") ++ quote :: comma ::
        quote :: (ascii "ready" ++ quote :: colon :: boolText true))) := by
    decide
  have h6 : ascii ",\"graph_execution\":" = comma :: quote :: (ascii "graph_execution" ++ [quote, colon]) := by
    decide
  have h7 : ascii ",\"ttl_ms\":" = comma :: quote :: (ascii "ttl_ms" ++ [quote, colon]) := by
    decide
  have h8 : ascii ",\"profiling\":[\"off\",\"summary\",\"detailed\"]\x7d" = comma :: profiling := by
    decide
  cases graph with
  | none => simp [announcement, fields, field, quoted, graphHint, hintField, h1, h2, h3, h4, h5, h7, h8]
  | some b => simp [announcement, fields, field, quoted, graphHint, hintField, h1, h2, h3, h4, h5, h6, h7, h8]

variable {rest key ending json : ByteString} {i : Int}

theorem after_brace : after (marker key ending) (123 :: rest) = after (marker key ending) rest :=
  after_cons_of_ne (by decide)

theorem quote_notMem_decimalInt (i : Int) : quote ∉ decimalInt i := notMem_decimalInt rfl (by decide) i

theorem quote_notMem_boolText (b : Bool) : quote ∉ boolText b := by
  cases b <;> decide

theorem after_hintField (hk : Plain key) (hne : key ≠ ascii "graph_execution") :
    after (marker key ending) (hintField graph rest) = after (marker key ending) rest := by
  cases graph with
  | none => rfl
  | some b => exact after_plain_field hk (by decide) hne (quote_notMem_boolText b)

theorem json_string_of_after {s : ByteString}
    (h : after (stringMarker key) json = after (stringMarker key) (field key (quoted s) rest)) :
    json_string json key = s.flatMap readBack := by
  rw [json_string, h, after_stringMarker]
  exact readString_json_escape s [] _

theorem json_int_of_after (hlo : -2 ^ 31 ≤ i) (hhi : i < 2 ^ 31)
    (h : after (valueMarker key) json = after (valueMarker key) (field key (decimalInt i) rest)) :
    json_int json key = i := by
  rw [json_int, h, after_valueMarker]
  exact atoi_decimalInt hlo hhi rfl

theorem after_number_field {key' : ByteString} (hk : Plain key) (hk' : quote ∉ key') (hne : key ≠ key') :
    after (marker key ending) (field key' (decimalInt i) rest) = after (marker key ending) rest :=
  after_plain_field hk hk' hne (quote_notMem_decimalInt i)

theorem read_runner_id :
    json_string (announcement runner_id advertise_host port target graph ttl_ms) (ascii "runner_id") =
      runner_id.flatMap readBack := by
  apply json_string_of_after
  rw [announcement_eq_fields, fields, stringMarker]
  simp (disch := decide) only [after_brace, after_plain_field]
  rfl

theorem read_host :
    json_string (announcement runner_id advertise_host port target graph ttl_ms) (ascii "host") =
      advertise_host.flatMap readBack := by
  apply json_string_of_after
  rw [announcement_eq_fields, fields, stringMarker]
  simp (disch := decide) only [after_brace, after_plain_field, after_quoted_field]
  rfl

theorem read_target :
    json_string (announcement runner_id advertise_host port target graph ttl_ms) (ascii "target") =
      target.flatMap readBack := by
  apply json_string_of_after
  rw [announcement_eq_fields, fields, stringMarker]
  simp (disch := decide) only [after_brace, after_plain_field, after_quoted_field, after_number_field]
  rfl

theorem read_transport :
    json_string (announcement runner_id advertise_host port target graph ttl_ms) (ascii "transport") =
      ascii "onnx-remote-v5" := by
  have h : json_string (announcement runner_id advertise_host port target graph ttl_ms) (ascii "transport") =
      (ascii "onnx-remote-v5").flatMap readBack := by
    apply json_string_of_after
    rw [announcement_eq_fields, fields, stringMarker]
    simp (disch := decide) only [after_brace, after_plain_field, after_quoted_field, after_number_field]
    rfl
  rw [h]
  decide

theorem read_port (hlo : -2 ^ 31 ≤ port) (hhi : port < 2 ^ 31) :
    json_int (announcement runner_id advertise_host port target graph ttl_ms) (ascii "port") = port := by
  apply json_int_of_after hlo hhi
  rw [announcement_eq_fields, fields, valueMarker]
  simp (disch := decide) only [after_brace, after_plain_field, after_quoted_field]
  rfl

theorem read_ttl_ms (hlo : -2 ^ 31 ≤ ttl_ms) (hhi : ttl_ms < 2 ^ 31) :
    json_int (announcement runner_id advertise_host port target graph ttl_ms) (ascii "ttl_ms") = ttl_ms := by
  apply json_int_of_after hlo hhi
  rw [announcement_eq_fields, fields, valueMarker]
  simp (disch := decide) only [after_brace, after_plain_field, after_quoted_field, after_number_field,
    after_hintField]
  rfl

end Onnxsim.Discovery.Announcements
