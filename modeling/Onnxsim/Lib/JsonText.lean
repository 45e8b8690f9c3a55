import Onnxsim.Lib.Dicts
import Onnxsim.Lib.JsonStrings

namespace Onnxsim.Lib.JsonText

open List Option Dicts
open JsonStrings

variable {rest ds : List Char}

def takeDigits (cs : List Char) : List Char := cs.takeWhile Char.isDigit

def dropDigits (cs : List Char) : List Char := cs.dropWhile Char.isDigit

/-- Digits without a zero in front, unless the zero is all there is. -/
def matchWhole : List Char → Option (List Char × List Char)
  | [] => none
  | c :: cs =>
    if c = '0' then some (['0'], cs)
    else if c.isDigit then some (c :: takeDigits cs, dropDigits cs)
    else none

def matchInteger : List Char → Option (List Char × List Char)
  | [] => none
  | c :: cs =>
    if c = '-' then (matchWhole cs).map fun p => ('-' :: p.1, p.2) else matchWhole (c :: cs)

def matchFrac : List Char → List Char × List Char
  | [] => ([], [])
  | c :: cs => if c = '.' ∧ takeDigits cs ≠ [] then ('.' :: takeDigits cs, dropDigits cs) else ([], c :: cs)

def matchSign : List Char → List Char × List Char
  | [] => ([], [])
  | c :: cs => if c = '+' ∨ c = '-' then ([c], cs) else ([], c :: cs)

def matchExponent : List Char → List Char × List Char
  | [] => ([], [])
  | c :: cs =>
    if (c = 'e' ∨ c = 'E') ∧ takeDigits (matchSign cs).2 ≠ [] then
      (c :: (matchSign cs).1 ++ takeDigits (matchSign cs).2, dropDigits (matchSign cs).2)
    else ([], c :: cs)

def IsDigits (ds : List Char) : Prop := ∀ c ∈ ds, c.isDigit = true

def IsWhole (ds : List Char) : Prop := matchWhole ds = some (ds, []) ∧ IsDigits ds

/-- The text of a number with a fraction or an exponent. -/
structure NumberText where
  negative : Bool
  whole : List Char
  frac : List Char
  exponent : Option (Bool × List Char)
  isWhole : IsWhole whole
  fracDigits : IsDigits frac
  exponentDigits : ∀ e ∈ exponent, IsDigits e.2 ∧ e.2 ≠ []
  notInteger : frac ≠ [] ∨ exponent ≠ none

namespace NumberText

def integerText (t : NumberText) : List Char := if t.negative then '-' :: t.whole else t.whole

def fracText (t : NumberText) : List Char := if t.frac = [] then [] else '.' :: t.frac

def exponentText (t : NumberText) : List Char :=
  match t.exponent with
  | none => []
  | some e => 'e' :: (if e.1 then '-' else '+') :: e.2

def text (t : NumberText) : List Char := t.integerText ++ (t.fracText ++ t.exponentText)

end NumberText

def intText (n : Int) : List Char :=
  if n < 0 then '-' :: Nat.toDigits 10 n.natAbs else Nat.toDigits 10 n.natAbs

def intOfText : List Char → Int
  | [] => 0
  | c :: cs => if c = '-' then -(Nat.ofDigitChars 10 cs 0 : Int) else Nat.ofDigitChars 10 (c :: cs) 0

def NoDigit (rest : List Char) : Prop := ∀ c ∈ rest.head?, c.isDigit = false

/-- Nothing that could belong to a number comes next. -/
def Stops (rest : List Char) : Prop :=
  ∀ c ∈ rest.head?, c.isDigit = false ∧ c ≠ '.' ∧ c ≠ 'e' ∧ c ≠ 'E'

theorem isDigits_nil : IsDigits [] := by simp [IsDigits]

theorem noDigit_nil : NoDigit [] := by simp [NoDigit]

theorem Stops.noDigit (h : Stops rest) : NoDigit rest := fun c hc => (h c hc).1

theorem takeDigits_append (hds : IsDigits ds) (h : NoDigit rest) : takeDigits (ds ++ rest) = ds := by
  rw [takeDigits, takeWhile_append_of_pos hds]
  cases rest with
  | nil => simp
  | cons c cs => simp [h c rfl]

theorem dropDigits_append (hds : IsDigits ds) (h : NoDigit rest) : dropDigits (ds ++ rest) = rest := by
  rw [dropDigits, dropWhile_append_of_pos hds]
  cases rest with
  | nil => rfl
  | cons c cs => simp [h c rfl]

theorem matchWhole_append (hds : IsWhole ds) (h : NoDigit rest) : matchWhole (ds ++ rest) = some (ds, rest) := by
  obtain ⟨hmatch, hdigits⟩ := hds
  cases ds with
  | nil => cases hmatch
  | cons c cs =>
    have htail : IsDigits cs := fun d hd => hdigits d (mem_cons_of_mem _ hd)
    rw [matchWhole] at hmatch
    rw [cons_append, matchWhole]
    split at hmatch
    · next hzero =>
      cases hmatch
      rw [if_pos hzero]
      rfl
    · next hzero =>
      rw [if_neg hzero, if_pos (hdigits c mem_cons_self), takeDigits_append htail h,
        dropDigits_append htail h]

theorem head_ne_minus (h : IsDigits ds) : ∀ c ∈ ds.head?, c ≠ '-' := by
  intro c hc he
  subst he
  have hdigit := h '-' (mem_of_mem_head? hc)
  revert hdigit
  decide

theorem matchInteger_append (negative : Bool) (hds : IsWhole ds) (h : NoDigit rest) :
    matchInteger ((if negative then '-' :: ds else ds) ++ rest) =
      some (if negative then '-' :: ds else ds, rest) := by
  cases negative with
  | true =>
    simp only [if_true, cons_append]
    rw [matchInteger, if_pos rfl, matchWhole_append hds h]
    rfl
  | false =>
    cases ds with
    | nil => cases hds.1
    | cons c cs =>
      have hc : c ≠ '-' := head_ne_minus hds.2 c rfl
      have hmatch := matchWhole_append hds h
      simp only [Bool.false_eq_true, if_false, cons_append] at hmatch ⊢
      rw [matchInteger, if_neg hc, hmatch]

theorem matchFrac_append (hds : IsDigits ds) (h : NoDigit rest) (hpoint : ∀ c ∈ rest.head?, c ≠ '.') :
    matchFrac ((if ds = [] then [] else '.' :: ds) ++ rest) = (if ds = [] then [] else '.' :: ds, rest) := by
  by_cases hnil : ds = []
  · simp only [if_pos hnil, nil_append]
    cases rest with
    | nil => rfl
    | cons c cs =>
      rw [matchFrac, if_neg]
      exact fun hc => hpoint c rfl hc.1
  · simp only [if_neg hnil, cons_append]
    rw [matchFrac, takeDigits_append hds h, if_pos ⟨rfl, hnil⟩, dropDigits_append hds h]

theorem matchExponent_append (negative : Bool) (hds : IsDigits ds) (hne : ds ≠ []) (h : NoDigit rest) :
    matchExponent ('e' :: (if negative then '-' else '+') :: ds ++ rest) =
      ('e' :: (if negative then '-' else '+') :: ds, rest) := by
  have hsign : matchSign ((if negative then '-' else '+') :: (ds ++ rest)) =
      ([if negative then '-' else '+'], ds ++ rest) := by
    cases negative <;> rfl
  rw [cons_append, cons_append, matchExponent, hsign]
  simp only [takeDigits_append hds h, dropDigits_append hds h]
  rw [if_pos ⟨.inl trivial, hne⟩]
  rfl

theorem matchExponent_nil (h : Stops rest) : matchExponent rest = ([], rest) := by
  cases rest with
  | nil => rfl
  | cons c cs =>
    obtain ⟨-, -, he, hE⟩ := h c rfl
    rw [matchExponent, if_neg]
    rintro ⟨hc | hc, -⟩
    · exact he hc
    · exact hE hc

theorem matchFrac_nil (h : Stops rest) : matchFrac rest = ([], rest) := by
  have hfrac := matchFrac_append isDigits_nil h.noDigit fun c hc => (h c hc).2.1
  simpa using hfrac

theorem digitChar_ne_zero : ∀ n < 10, n ≠ 0 → Nat.digitChar n ≠ '0' := by decide

theorem head_toDigits {n : Nat} (hn : n ≠ 0) : ∀ c ∈ (Nat.toDigits 10 n).head?, c ≠ '0' := by
  induction n using Nat.strongRecOn with
  | ind n ih =>
    intro c hc
    by_cases hlt : n < 10
    · rw [Nat.toDigits_of_lt_base hlt] at hc
      cases hc
      exact digitChar_ne_zero n hlt hn
    · have hsmaller : n / 10 < n := by omega
      rw [Nat.toDigits_of_base_le (by decide) (by omega),
        head?_append_of_ne_nil _ Nat.toDigits_ne_nil] at hc
      exact ih (n / 10) hsmaller (by omega) c hc

theorem isWhole_toDigits (n : Nat) : IsWhole (Nat.toDigits 10 n) := by
  have hdigits : IsDigits (Nat.toDigits 10 n) := fun c hc =>
    Nat.isDigit_of_mem_toDigits (by decide) (by decide) hc
  refine ⟨?_, hdigits⟩
  by_cases hn : n = 0
  · subst hn
    rfl
  · have hhead := head_toDigits hn
    cases hds : Nat.toDigits 10 n with
    | nil => exact absurd hds Nat.toDigits_ne_nil
    | cons c cs =>
      rw [hds] at hhead hdigits
      have htail : IsDigits cs := fun d hd => hdigits d (mem_cons_of_mem _ hd)
      have htake := takeDigits_append htail noDigit_nil
      have hdrop := dropDigits_append htail noDigit_nil
      rw [append_nil] at htake hdrop
      rw [matchWhole, if_neg (hhead c rfl), if_pos (hdigits c mem_cons_self), htake, hdrop]

theorem intOfText_intText (n : Int) : intOfText (intText n) = n := by
  rw [intText]
  split
  · rw [intOfText, if_pos rfl, Nat.ofDigitChars_ten_toDigits]
    omega
  · have hwhole := isWhole_toDigits n.natAbs
    have hvalue : Nat.ofDigitChars 10 (Nat.toDigits 10 n.natAbs) 0 = n.natAbs := Nat.ofDigitChars_ten_toDigits
    cases hds : Nat.toDigits 10 n.natAbs with
    | nil => exact absurd hds Nat.toDigits_ne_nil
    | cons c cs =>
      rw [hds] at hwhole hvalue
      rw [intOfText, if_neg (head_ne_minus hwhole.2 c rfl), hvalue]
      omega

inductive PyFloat (F : Type) where
  | finite (x : F)
  | nan
  | infinite (negative : Bool)
deriving DecidableEq

/-- How finite floats are written and read. -/
structure FloatText (F : Type) where
  repr : F → NumberText
  float : List Char → PyFloat F
  float_repr : ∀ x, float (repr x).text = .finite x

inductive Json (F : Type) where
  | null
  | bool (b : Bool)
  | int (n : Int)
  | float (x : PyFloat F)
  | str (s : Str)
  | list (items : List (Json F))
  | dict (members : List (Str × Json F))

mutual

/-- A value that JSON has a text for: the keys of an object are distinct, and no string holds a surrogate
pair in two pieces. -/
def Plain {F : Type} : Json F → Prop
  | .null => True
  | .bool _ => True
  | .int _ => True
  | .float _ => True
  | .str s => Joined s
  | .list items => PlainItems items
  | .dict members => (members.map Prod.fst).Nodup ∧ PlainMembers members

def PlainItems {F : Type} : List (Json F) → Prop
  | [] => True
  | j :: js => Plain j ∧ PlainItems js

def PlainMembers {F : Type} : List (Str × Json F) → Prop
  | [] => True
  | (k, j) :: ms => Joined k ∧ Plain j ∧ PlainMembers ms

end

section

variable {F : Type} (floats : FloatText F)

def floatText : PyFloat F → List Char
  | .finite x => (floats.repr x).text
  | .nan => "NaN".toList
  | .infinite negative => if negative then "-Infinity".toList else "Infinity".toList

mutual

/-- `json.dumps` with `separators=(",", ":")`. -/
def dumps : Json F → List Char
  | .null => "null".toList
  | .bool b => if b then "true".toList else "false".toList
  | .int n => intText n
  | .float x => floatText floats x
  | .str s => quote s
  | .list items => '[' :: dumpItems items
  | .dict members => '\x7b' :: dumpMembers members

/-- The items of a list and the bracket that closes it. -/
def dumpItems : List (Json F) → List Char
  | [] => [']']
  | j :: js => dumps j ++ dumpRest js

def dumpRest : List (Json F) → List Char
  | [] => [']']
  | j :: js => ',' :: (dumps j ++ dumpRest js)

def dumpMembers : List (Str × Json F) → List Char
  | [] => ['\x7d']
  | (k, j) :: ms => quote k ++ ':' :: (dumps j ++ dumpOthers ms)

def dumpOthers : List (Str × Json F) → List Char
  | [] => ['\x7d']
  | (k, j) :: ms => ',' :: (quote k ++ ':' :: (dumps j ++ dumpOthers ms))

end

def isSpace (c : Char) : Bool := c = ' ' || c = '\t' || c = '\n' || c = '\r'

def skipSpace (cs : List Char) : List Char := cs.dropWhile isSpace

def dropText : List Char → List Char → Option (List Char)
  | [], cs => some cs
  | _ :: _, [] => none
  | a :: as, c :: cs => if a = c then dropText as cs else none

def literals : List (List Char × Json F) :=
  [("null".toList, .null), ("true".toList, .bool true), ("false".toList, .bool false),
    ("NaN".toList, .float .nan), ("Infinity".toList, .float (.infinite false)),
    ("-Infinity".toList, .float (.infinite true))]

def scanLiteral (cs : List Char) : Option (Json F × List Char) :=
  literals.findSome? fun l => (dropText l.1 cs).map fun rest => (l.2, rest)

def scanNumber (cs : List Char) : Option (Json F × List Char) := do
  let integer ← matchInteger cs
  let frac := matchFrac integer.2
  let exponent := matchExponent frac.2
  if frac.1 = [] ∧ exponent.1 = [] then pure (.int (intOfText integer.1), exponent.2)
  else pure (.float (floats.float (integer.1 ++ (frac.1 ++ exponent.1))), exponent.2)

def scanAtom (cs : List Char) : Option (Json F × List Char) :=
  (scanLiteral cs).or (scanNumber floats cs)

mutual

def scanOnce : Nat → List Char → Option (Json F × List Char)
  | 0, _ => none
  | _ + 1, [] => none
  | fuel + 1, c :: cs =>
    if c = '"' then (scanString cs).map fun p => (.str p.1, p.2)
    else if c = '[' then
      if (skipSpace cs).head? = some ']' then some (.list [], (skipSpace cs).tail)
      else (scanItems fuel (skipSpace cs)).map fun p => (.list p.1, p.2)
    else if c = '\x7b' then
      if (skipSpace cs).head? = some '\x7d' then some (.dict [], (skipSpace cs).tail)
      else (scanMembers fuel (skipSpace cs)).map fun p => (.dict (Dict.empty.setAll p.1).entries, p.2)
    else scanAtom floats (c :: cs)

def scanItems : Nat → List Char → Option (List (Json F) × List Char)
  | 0, _ => none
  | fuel + 1, cs => do
    let v ← scanOnce fuel cs
    match skipSpace v.2 with
    | [] => none
    | c :: rest =>
      if c = ']' then pure ([v.1], rest)
      else if c = ',' then do
        let vs ← scanItems fuel (skipSpace rest)
        pure (v.1 :: vs.1, vs.2)
      else none

def scanMembers : Nat → List Char → Option (List (Str × Json F) × List Char)
  | 0, _ => none
  | _ + 1, [] => none
  | fuel + 1, c :: cs =>
    if c ≠ '"' then none
    else do
      let k ← scanString cs
      match skipSpace k.2 with
      | [] => none
      | c :: rest =>
        if c ≠ ':' then none
        else do
          let v ← scanOnce fuel (skipSpace rest)
          match skipSpace v.2 with
          | [] => none
          | c :: rest =>
            if c = '\x7d' then pure ([(k.1, v.1)], rest)
            else if c = ',' then do
              let ms ← scanMembers fuel (skipSpace rest)
              pure ((k.1, v.1) :: ms.1, ms.2)
            else none

end

/-- `json.loads` of a text. -/
def loads (cs : List Char) : Option (Json F) :=
  if cs.head? = some '\uFEFF' then none
  else do
    let v ← scanOnce floats (cs.length + 1) (skipSpace cs)
    if skipSpace v.2 = [] then pure v.1 else none

end

variable {F : Type} {floats : FloatText F} {c : Char} {fuel : Nat}

theorem isDigit_ne {d : Char} (hc : c.isDigit = true) (hd : d.isDigit = false) : c ≠ d := by
  rintro rfl
  rw [hc] at hd
  cases hd

theorem exists_cons_of_isWhole (h : IsWhole ds) : ∃ d rest, ds = d :: rest ∧ d.isDigit = true := by
  cases ds with
  | nil => cases h.1
  | cons d rest => exact ⟨d, rest, rfl, h.2 d mem_cons_self⟩

theorem scanLiteral_number (negative : Bool) (h : IsWhole ds) (rest : List Char) :
    (scanLiteral ((if negative then '-' :: ds else ds) ++ rest) : Option (Json F × List Char)) = none := by
  obtain ⟨d, ds, rfl, hd⟩ := exists_cons_of_isWhole h
  have hn : ∀ c : Char, c.isDigit = false → ¬ c = d := fun c hc he => isDigit_ne hd hc he.symm
  cases negative with
  | true => simp [scanLiteral, literals, dropText, hn 'I' (by decide)]
  | false =>
    simp [scanLiteral, literals, dropText, hn 'n' (by decide), hn 't' (by decide), hn 'f' (by decide),
      hn 'N' (by decide), hn 'I' (by decide), hn '-' (by decide)]

theorem scanNumber_int (floats : FloatText F) (n : Int) (h : Stops rest) :
    scanNumber floats (intText n ++ rest) = some (.int n, rest) := by
  have hint : intText n =
      if decide (n < 0) then '-' :: Nat.toDigits 10 n.natAbs else Nat.toDigits 10 n.natAbs := by
    simp [intText]
  have hmatch := matchInteger_append (decide (n < 0)) (isWhole_toDigits n.natAbs) h.noDigit
  rw [← hint] at hmatch
  simp only [scanNumber, hmatch, bind_eq_bind, bind_some, matchFrac_nil h, matchExponent_nil h,
    and_self, if_true, intOfText_intText, Option.pure_def]

theorem NumberText.exponent_head {t : NumberText} (h : Stops rest) :
    NoDigit (t.exponentText ++ rest) ∧ ∀ c ∈ (t.exponentText ++ rest).head?, c ≠ '.' := by
  rw [NumberText.exponentText]
  cases t.exponent with
  | none => exact ⟨h.noDigit, fun c hc => (h c hc).2.1⟩
  | some e =>
    constructor <;> rintro c ⟨⟩ <;> decide

theorem NumberText.matchExponent_text (t : NumberText) (h : Stops rest) :
    matchExponent (t.exponentText ++ rest) = (t.exponentText, rest) := by
  rw [NumberText.exponentText]
  cases he : t.exponent with
  | none => exact matchExponent_nil h
  | some e =>
    obtain ⟨hdigits, hne⟩ := t.exponentDigits e he
    exact matchExponent_append e.1 hdigits hne h.noDigit

theorem NumberText.noDigit_frac (t : NumberText) (h : Stops rest) :
    NoDigit (t.fracText ++ (t.exponentText ++ rest)) := by
  rw [NumberText.fracText]
  split
  · exact (t.exponent_head h).1
  · rintro c ⟨⟩
    decide

theorem scanNumber_float (floats : FloatText F) (x : F) (h : Stops rest) :
    scanNumber floats ((floats.repr x).text ++ rest) = some (.float (.finite x), rest) := by
  let t := floats.repr x
  have hinteger : matchInteger (t.integerText ++ (t.fracText ++ (t.exponentText ++ rest))) =
      some (t.integerText, t.fracText ++ (t.exponentText ++ rest)) :=
    matchInteger_append t.negative t.isWhole (t.noDigit_frac h)
  have hfrac : matchFrac (t.fracText ++ (t.exponentText ++ rest)) = (t.fracText, t.exponentText ++ rest) :=
    matchFrac_append t.fracDigits (t.exponent_head h).1 (t.exponent_head h).2
  have hexponent := t.matchExponent_text h
  have hnot : ¬ (t.fracText = [] ∧ t.exponentText = []) := by
    rintro ⟨hf, he⟩
    rw [NumberText.fracText] at hf
    rw [NumberText.exponentText] at he
    rcases t.notInteger with hne | hne
    · rw [if_neg hne] at hf
      cases hf
    · cases hexp : t.exponent with
      | none => exact hne hexp
      | some e =>
        rw [hexp] at he
        cases he
  have htext : (floats.repr x).text ++ rest = t.integerText ++ (t.fracText ++ (t.exponentText ++ rest)) := by
    simp [NumberText.text, t]
  have hfloat : floats.float (t.integerText ++ (t.fracText ++ t.exponentText)) = .finite x :=
    floats.float_repr x
  rw [htext]
  simp only [scanNumber, hinteger, bind_eq_bind, bind_some, hfrac, hexponent, if_neg hnot, hfloat,
    Option.pure_def]

theorem scanAtom_int (floats : FloatText F) (n : Int) (h : Stops rest) :
    scanAtom floats (intText n ++ rest) = some (.int n, rest) := by
  have hint : intText n =
      if decide (n < 0) then '-' :: Nat.toDigits 10 n.natAbs else Nat.toDigits 10 n.natAbs := by
    simp [intText]
  have hliteral := scanLiteral_number (F := F) (decide (n < 0)) (isWhole_toDigits n.natAbs) rest
  rw [← hint] at hliteral
  rw [scanAtom, hliteral, scanNumber_int floats n h]
  rfl

theorem scanAtom_float (floats : FloatText F) (x : PyFloat F) (h : Stops rest) :
    scanAtom floats (floatText floats x ++ rest) = some (.float x, rest) := by
  cases x with
  | finite x =>
    have htext : (floats.repr x).text ++ rest = (floats.repr x).integerText ++
        ((floats.repr x).fracText ++ ((floats.repr x).exponentText ++ rest)) := by
      simp [NumberText.text]
    have hnumber := scanNumber_float floats x h
    rw [floatText, scanAtom, hnumber, htext, NumberText.integerText,
      scanLiteral_number (floats.repr x).negative (floats.repr x).isWhole]
    rfl
  | nan => rfl
  | infinite negative => cases negative <;> rfl

/-- A value of several characters cannot begin with this. -/
structure Atomic (c : Char) : Prop where
  notSpace : isSpace c = false
  notClose : c ≠ ']'
  notQuote : c ≠ '"'
  notList : c ≠ '['
  notDict : c ≠ '\x7b'
  notMark : c ≠ '\uFEFF'

theorem atomic_of_isDigit (h : c.isDigit = true) : Atomic c where
  notSpace := by
    simp [isSpace, isDigit_ne h (by decide : ' '.isDigit = false),
      isDigit_ne h (by decide : '\t'.isDigit = false), isDigit_ne h (by decide : '\n'.isDigit = false),
      isDigit_ne h (by decide : '\r'.isDigit = false)]
  notClose := isDigit_ne h (by decide)
  notQuote := isDigit_ne h (by decide)
  notList := isDigit_ne h (by decide)
  notDict := isDigit_ne h (by decide)
  notMark := isDigit_ne h (by decide)

theorem atomic_minus : Atomic '-' := ⟨by decide, by decide, by decide, by decide, by decide, by decide⟩

theorem number_head {negative : Bool} (h : IsWhole ds) (rest : List Char) :
    ∃ c cs, (if negative then '-' :: ds else ds) ++ rest = c :: cs ∧ Atomic c := by
  obtain ⟨d, ds, rfl, hd⟩ := exists_cons_of_isWhole h
  cases negative with
  | true => exact ⟨'-', d :: ds ++ rest, rfl, atomic_minus⟩
  | false => exact ⟨d, ds ++ rest, rfl, atomic_of_isDigit hd⟩

theorem intText_head (n : Int) : ∃ c cs, intText n = c :: cs ∧ Atomic c := by
  have hint : intText n =
      (if decide (n < 0) then '-' :: Nat.toDigits 10 n.natAbs else Nat.toDigits 10 n.natAbs) ++ [] := by
    simp [intText]
  rw [hint]
  exact number_head (isWhole_toDigits n.natAbs) []

theorem floatText_head (floats : FloatText F) (x : PyFloat F) : ∃ c cs, floatText floats x = c :: cs ∧ Atomic c := by
  cases x with
  | finite x => exact number_head (floats.repr x).isWhole _
  | nan => exact ⟨'N', _, rfl, by decide, by decide, by decide, by decide, by decide, by decide⟩
  | infinite negative =>
    cases negative with
    | true => exact ⟨'-', _, rfl, atomic_minus⟩
    | false => exact ⟨'I', _, rfl, by decide, by decide, by decide, by decide, by decide, by decide⟩

theorem dumps_head (floats : FloatText F) (j : Json F) :
    ∃ c cs, dumps floats j = c :: cs ∧ isSpace c = false ∧ c ≠ ']' ∧ c ≠ '\uFEFF' := by
  have hatomic : ∀ cs : List Char, (∃ d ds, cs = d :: ds ∧ Atomic d) →
      ∃ c ds, cs = c :: ds ∧ isSpace c = false ∧ c ≠ ']' ∧ c ≠ '\uFEFF' := by
    rintro cs ⟨d, ds, hcs, hd⟩
    exact ⟨d, ds, hcs, hd.notSpace, hd.notClose, hd.notMark⟩
  cases j with
  | null => exact ⟨'n', _, rfl, by decide, by decide, by decide⟩
  | bool b =>
    cases b with
    | true => exact ⟨'t', _, rfl, by decide, by decide, by decide⟩
    | false => exact ⟨'f', _, rfl, by decide, by decide, by decide⟩
  | int n => exact hatomic _ (intText_head n)
  | float x => exact hatomic _ (floatText_head floats x)
  | str s => exact ⟨'"', _, rfl, by decide, by decide, by decide⟩
  | list items => exact ⟨'[', _, rfl, by decide, by decide, by decide⟩
  | dict members => exact ⟨'\x7b', _, rfl, by decide, by decide, by decide⟩

theorem skipSpace_cons {c : Char} (h : isSpace c = false) (cs : List Char) : skipSpace (c :: cs) = c :: cs := by
  rw [skipSpace, dropWhile_cons_of_neg (by simp [h])]

theorem skipSpace_dumps (floats : FloatText F) (j : Json F) (rest : List Char) :
    skipSpace (dumps floats j ++ rest) = dumps floats j ++ rest := by
  obtain ⟨c, cs, hj, hc, -⟩ := dumps_head floats j
  rw [hj, cons_append, skipSpace_cons hc]

theorem scanOnce_atom {c : Char} {cs : List Char} {v : Json F × List Char} (fuel : Nat) (hc : Atomic c)
    (h : scanAtom floats (c :: cs) = some v) : scanOnce floats (fuel + 1) (c :: cs) = some v := by
  rw [scanOnce, if_neg hc.notQuote, if_neg hc.notList, if_neg hc.notDict, h]

theorem stops_cons {c : Char} (h : c = ',' ∨ c = ']' ∨ c = '\x7d') (cs : List Char) : Stops (c :: cs) := by
  rintro d ⟨⟩
  rcases h with rfl | rfl | rfl <;> decide

variable (floats) in
/-- What the scanner does with that much fuel, for values, items and members. -/
structure Scans (fuel : Nat) : Prop where
  value : ∀ (j : Json F) (rest : List Char), Plain j → (dumps floats j).length ≤ fuel → Stops rest →
    scanOnce floats fuel (dumps floats j ++ rest) = some (j, rest)
  items : ∀ (i : Json F) (items : List (Json F)) (rest : List Char), PlainItems (i :: items) →
    (dumpItems floats (i :: items)).length ≤ fuel →
    scanItems floats fuel (dumpItems floats (i :: items) ++ rest) = some (i :: items, rest)
  members : ∀ (k : Str) (j : Json F) (ms : List (Str × Json F)) (rest : List Char),
    PlainMembers ((k, j) :: ms) → (dumpMembers floats ((k, j) :: ms)).length ≤ fuel →
    scanMembers floats fuel (dumpMembers floats ((k, j) :: ms) ++ rest) = some ((k, j) :: ms, rest)

theorem scans_zero : Scans floats 0 where
  value j rest _ hfuel _ := by
    obtain ⟨c, cs, hj, -⟩ := dumps_head floats j
    rw [hj] at hfuel
    cases hfuel
  items i items rest _ hfuel := by
    obtain ⟨c, cs, hi, -⟩ := dumps_head floats i
    rw [dumpItems, hi] at hfuel
    cases hfuel
  members k j ms rest _ hfuel := by cases hfuel

theorem Scans.value_list {fuel : Nat} (ih : Scans floats fuel) {items : List (Json F)} (h : PlainItems items)
    (hfuel : (dumpItems floats items).length ≤ fuel) (rest : List Char) :
    scanOnce floats (fuel + 1) ('[' :: (dumpItems floats items ++ rest)) = some (.list items, rest) := by
  rw [scanOnce, if_neg (by decide), if_pos rfl]
  cases items with
  | nil => rfl
  | cons i items =>
    obtain ⟨c, cs, hi, hspace, hclose, -⟩ := dumps_head floats i
    have htext : dumpItems floats (i :: items) ++ rest = c :: (cs ++ (dumpRest floats items ++ rest)) := by
      simp [dumpItems, hi]
    have hitems := ih.items i items rest h hfuel
    rw [htext] at hitems ⊢
    rw [skipSpace_cons hspace, if_neg (by simpa using hclose), hitems]
    rfl

theorem Scans.value_dict {fuel : Nat} (ih : Scans floats fuel) {members : List (Str × Json F)}
    (hkeys : (members.map Prod.fst).Nodup) (h : PlainMembers members)
    (hfuel : (dumpMembers floats members).length ≤ fuel) (rest : List Char) :
    scanOnce floats (fuel + 1) ('\x7b' :: (dumpMembers floats members ++ rest)) =
      some (.dict members, rest) := by
  rw [scanOnce, if_neg (by decide), if_neg (by decide), if_pos rfl]
  cases members with
  | nil => rfl
  | cons m members =>
    have hmembers := ih.members m.1 m.2 members rest h hfuel
    have htext : ∃ cs, dumpMembers floats (m :: members) ++ rest = '"' :: cs := ⟨_, rfl⟩
    obtain ⟨cs, htext⟩ := htext
    have hentries : (Dict.empty.setAll (m :: members)).entries = m :: members :=
      Dict.entries_setAll (d := Dict.empty) hkeys
    rw [htext] at hmembers ⊢
    rw [skipSpace_cons (by decide), if_neg (by simp), hmembers, map_some, hentries]

theorem Scans.value_step (ih : Scans floats fuel) (j : Json F) (rest : List Char) (h : Plain j)
    (hfuel : (dumps floats j).length ≤ fuel + 1) (hrest : Stops rest) :
    scanOnce floats (fuel + 1) (dumps floats j ++ rest) = some (j, rest) := by
  cases j with
  | null => rfl
  | bool b => cases b <;> rfl
  | int n =>
    obtain ⟨c, cs, htext, hc⟩ := intText_head n
    have hatom := scanAtom_int floats n hrest
    rw [dumps, htext, cons_append]
    rw [htext, cons_append] at hatom
    exact scanOnce_atom fuel hc hatom
  | float x =>
    obtain ⟨c, cs, htext, hc⟩ := floatText_head floats x
    have hatom := scanAtom_float floats x hrest
    rw [dumps, htext, cons_append]
    rw [htext, cons_append] at hatom
    exact scanOnce_atom fuel hc hatom
  | str s =>
    obtain ⟨cs, htext, hscan⟩ := scanString_quote h rest
    rw [dumps, htext, scanOnce, if_pos rfl, hscan]
    rfl
  | list items =>
    rw [dumps, cons_append]
    exact ih.value_list h (Nat.le_of_succ_le_succ hfuel) rest
  | dict members =>
    rw [dumps, cons_append]
    exact ih.value_dict h.1 h.2 (Nat.le_of_succ_le_succ hfuel) rest

theorem Scans.items_step (ih : Scans floats fuel) (i : Json F) (items : List (Json F)) (rest : List Char)
    (h : PlainItems (i :: items)) (hfuel : (dumpItems floats (i :: items)).length ≤ fuel + 1) :
    scanItems floats (fuel + 1) (dumpItems floats (i :: items) ++ rest) = some (i :: items, rest) := by
  have hlength : (dumpItems floats (i :: items)).length =
      (dumps floats i).length + (dumpRest floats items).length := by
    rw [dumpItems, length_append]
  rw [dumpItems, append_assoc, scanItems]
  cases items with
  | nil =>
    have hclose : (dumpRest floats ([] : List (Json F))).length = 1 := rfl
    have hi := ih.value i (dumpRest floats [] ++ rest) h.1 (by omega) (stops_cons (.inr (.inl rfl)) _)
    rw [hi]
    rfl
  | cons k items =>
    have hmore : (dumpRest floats (k :: items)).length = (dumpItems floats (k :: items)).length + 1 := by
      simp [dumpRest, dumpItems]
    have hi := ih.value i (dumpRest floats (k :: items) ++ rest) h.1 (by omega) (stops_cons (.inl rfl) _)
    have hitems := ih.items k items rest h.2 (by omega)
    have htext : dumpRest floats (k :: items) ++ rest = ',' :: (dumpItems floats (k :: items) ++ rest) := by
      simp [dumpRest, dumpItems]
    have hskip : skipSpace (dumpItems floats (k :: items) ++ rest) = dumpItems floats (k :: items) ++ rest := by
      rw [dumpItems, append_assoc, skipSpace_dumps floats]
    rw [hi, htext]
    simp only [bind_eq_bind, bind_some, skipSpace_cons (by decide : isSpace ',' = false)]
    rw [if_neg (by decide), if_pos trivial, hskip, hitems]
    rfl

theorem Scans.members_step (ih : Scans floats fuel) (k : Str) (j : Json F) (ms : List (Str × Json F))
    (rest : List Char) (h : PlainMembers ((k, j) :: ms))
    (hfuel : (dumpMembers floats ((k, j) :: ms)).length ≤ fuel + 1) :
    scanMembers floats (fuel + 1) (dumpMembers floats ((k, j) :: ms) ++ rest) = some ((k, j) :: ms, rest) := by
  have hlength : (dumpMembers floats ((k, j) :: ms)).length =
      (quote k).length + ((dumps floats j).length + (dumpOthers floats ms).length + 1) := by
    rw [dumpMembers, length_append, length_cons, length_append]
  have hmore : 1 ≤ (dumpOthers floats ms).length := by
    cases ms with
    | nil => exact Nat.le_refl _
    | cons p ms => exact Nat.le_add_left _ _
  obtain ⟨cs, hquote, hscan⟩ :=
    scanString_quote h.1 (':' :: (dumps floats j ++ (dumpOthers floats ms ++ rest)))
  have htext : dumpMembers floats ((k, j) :: ms) ++ rest = '"' :: cs := by
    rw [← hquote, dumpMembers]
    simp
  have hstops : Stops (dumpOthers floats ms ++ rest) := by
    cases ms with
    | nil => exact stops_cons (.inr (.inr rfl)) _
    | cons p ms => exact stops_cons (.inl rfl) _
  have hj := ih.value j _ h.2.1 (by omega) hstops
  rw [htext, scanMembers, if_neg (by simp), hscan]
  simp only [bind_eq_bind, bind_some, skipSpace_cons (by decide : isSpace ':' = false)]
  rw [if_neg (by simp), skipSpace_dumps floats, hj, bind_some]
  cases ms with
  | nil => rfl
  | cons p ms =>
    have hothers : (dumpOthers floats (p :: ms)).length = (dumpMembers floats (p :: ms)).length + 1 := by
      simp [dumpOthers, dumpMembers]
    have hmembers := ih.members p.1 p.2 ms rest h.2.2 (by
      change (dumpMembers floats (p :: ms)).length ≤ fuel
      omega)
    have hrest : dumpOthers floats (p :: ms) ++ rest = ',' :: (dumpMembers floats (p :: ms) ++ rest) := by
      simp [dumpOthers, dumpMembers]
    have hhead : ∃ ds, dumpMembers floats (p :: ms) ++ rest = '"' :: ds := ⟨_, rfl⟩
    obtain ⟨ds, hhead⟩ := hhead
    rw [hrest]
    simp only [skipSpace_cons (by decide : isSpace ',' = false)]
    rw [hhead] at hmembers ⊢
    rw [if_neg (by decide), if_pos trivial, skipSpace_cons (by decide), hmembers]
    rfl

theorem scans (fuel : Nat) : Scans floats fuel := by
  induction fuel with
  | zero => exact scans_zero
  | succ fuel ih => exact ⟨ih.value_step, ih.items_step, ih.members_step⟩

theorem dumps_ne_bom (floats : FloatText F) (j : Json F) : (dumps floats j).head? ≠ some '\uFEFF' := by
  obtain ⟨c, cs, hj, -, -, hc⟩ := dumps_head floats j
  rw [hj]
  exact fun he => hc (Option.some.inj he)

theorem loads_dumps {j : Json F} (h : Plain j) : loads floats (dumps floats j) = some j := by
  have hscan := (scans _).value j [] h (Nat.le_succ (dumps floats j).length) (by simp [Stops])
  have hskip := skipSpace_dumps floats j []
  rw [append_nil] at hscan hskip
  rw [loads, if_neg (dumps_ne_bom floats j), hskip, hscan]
  rfl

end Onnxsim.Lib.JsonText
