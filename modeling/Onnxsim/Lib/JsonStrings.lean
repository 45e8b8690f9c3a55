import Mathlib.Data.List.Basic

namespace Onnxsim.Lib.JsonStrings

open List Option

abbrev CodePoint := Fin 0x110000

/-- A string as a list of code points, surrogates among them. -/
abbrev Str := List CodePoint

def ofChar (c : Char) : CodePoint := Fin.ofNat 0x110000 c.toNat

def str (s : String) : Str := s.toList.map ofChar

def HighSurrogate (c : CodePoint) : Prop := 0xD800 ≤ c.val ∧ c.val < 0xDC00

def LowSurrogate (c : CodePoint) : Prop := 0xDC00 ≤ c.val ∧ c.val < 0xE000

instance : DecidablePred HighSurrogate := fun _ => inferInstanceAs (Decidable (_ ∧ _))

instance : DecidablePred LowSurrogate := fun _ => inferInstanceAs (Decidable (_ ∧ _))

variable {us : List CodePoint}

def highOf (c : CodePoint) : CodePoint := Fin.ofNat 0x110000 (0xD800 + (c.val - 0x10000) / 0x400)

def lowOf (c : CodePoint) : CodePoint := Fin.ofNat 0x110000 (0xDC00 + (c.val - 0x10000) % 0x400)

def units (c : CodePoint) : List CodePoint := if c.val < 0x10000 then [c] else [highOf c, lowOf c]

def combine (h l : CodePoint) : CodePoint :=
  Fin.ofNat 0x110000 (0x10000 + (h.val - 0xD800) * 0x400 + (l.val - 0xDC00))

/-- Every high surrogate that a low one follows becomes one code point with it. -/
def joinSurrogates : List CodePoint → Str
  | [] => []
  | [c] => [c]
  | c :: d :: rest =>
    if HighSurrogate c ∧ LowSurrogate d then combine c d :: joinSurrogates rest
    else c :: joinSurrogates (d :: rest)

/-- No high surrogate stands directly before a low one. -/
def Joined : Str → Prop
  | [] => True
  | [_] => True
  | c :: d :: rest => ¬ (HighSurrogate c ∧ LowSurrogate d) ∧ Joined (d :: rest)

variable {s : Str} {c u : CodePoint}

theorem joined_of_forall (h : ∀ c ∈ s, ¬ HighSurrogate c) : Joined s := by
  induction s with
  | nil => trivial
  | cons c s ih =>
    obtain ⟨hc, hs⟩ := forall_mem_cons.mp h
    cases s with
    | nil => trivial
    | cons d rest => exact ⟨fun hpair => hc hpair.1, ih hs⟩

theorem joined_str (s : String) : Joined (str s) := by
  apply joined_of_forall
  intro c hc
  obtain ⟨d, -, rfl⟩ := List.mem_map.mp hc
  have hvalid : d.toNat < 0xD800 ∨ 0xDFFF < d.toNat ∧ d.toNat < 0x110000 := d.valid
  simp only [ofChar, HighSurrogate, Fin.ofNat]
  omega

theorem highOf_val (h : ¬ c.val < 0x10000) : (highOf c).val = 0xD800 + (c.val - 0x10000) / 0x400 := by
  simp only [highOf, Fin.ofNat]
  omega

theorem lowOf_val (c : CodePoint) : (lowOf c).val = 0xDC00 + (c.val - 0x10000) % 0x400 := by
  simp only [lowOf, Fin.ofNat]
  omega

theorem highSurrogate_highOf (h : ¬ c.val < 0x10000) : HighSurrogate (highOf c) := by
  rw [HighSurrogate, highOf_val h]
  omega

theorem lowSurrogate_lowOf (c : CodePoint) : LowSurrogate (lowOf c) := by
  rw [LowSurrogate, lowOf_val]
  omega

theorem combine_units (h : ¬ c.val < 0x10000) : combine (highOf c) (lowOf c) = c := by
  apply Fin.ext
  simp only [combine, highOf_val h, lowOf_val, Fin.ofNat]
  omega

theorem units_small (h : u ∈ units c) : u.val < 0x10000 := by
  rw [units] at h
  split at h
  · next hc =>
    rw [mem_singleton.mp h]
    exact hc
  · next hc =>
    rcases mem_cons.mp h with rfl | h
    · rw [highOf_val hc]
      omega
    · rw [mem_singleton.mp h, lowOf_val]
      omega

theorem joinSurrogates_cons (h : ∀ d ∈ us.head?, ¬ (HighSurrogate c ∧ LowSurrogate d)) :
    joinSurrogates (c :: us) = c :: joinSurrogates us := by
  cases us with
  | nil => rfl
  | cons d rest => rw [joinSurrogates, if_neg (h d rfl)]

theorem head_units {d : CodePoint} (h : (units d).head? = some u) (hlow : LowSurrogate u) : d = u := by
  rw [units] at h
  split at h
  · cases h
    rfl
  · next hd =>
    cases h
    have hhigh := highSurrogate_highOf hd
    simp only [HighSurrogate, LowSurrogate] at hhigh hlow
    omega

theorem units_ne_nil (c : CodePoint) : units c ≠ [] := by
  rw [units]
  split <;> simp

/-- Reading the units back gives the string, unless it holds a surrogate pair in two pieces. -/
theorem joinSurrogates_units (h : Joined s) : joinSurrogates (s.flatMap units) = s := by
  induction s with
  | nil => rfl
  | cons c s ih =>
    have hs : Joined s := by
      cases s with
      | nil => trivial
      | cons d rest => exact h.2
    by_cases hc : c.val < 0x10000
    · have hunits : (c :: s).flatMap units = c :: s.flatMap units := by
        simp [units, hc]
      rw [hunits, joinSurrogates_cons, ih hs]
      intro d hd
      cases s with
      | nil => cases hd
      | cons e rest =>
        intro hpair
        have hhead : (units e).head? = some d := by
          cases he : units e with
          | nil => exact absurd he (units_ne_nil e)
          | cons u us => simpa [he] using hd
        rw [← head_units hhead hpair.2] at hpair
        exact h.1 hpair
    · have hunits : (c :: s).flatMap units = highOf c :: lowOf c :: s.flatMap units := by
        simp [units, hc]
      rw [hunits, joinSurrogates, if_pos ⟨highSurrogate_highOf hc, lowSurrogate_lowOf c⟩, combine_units hc,
        ih hs]

abbrev hexDigit (n : Nat) : Char := Nat.digitChar n

def hexValue (c : Char) : Option Nat :=
  if '0' ≤ c ∧ c ≤ '9' then some (c.toNat - 48)
  else if 'a' ≤ c ∧ c ≤ 'f' then some (c.toNat - 87)
  else if 'A' ≤ c ∧ c ≤ 'F' then some (c.toNat - 55)
  else none

/-- What stands after the backslash for a character that has an escape of its own. -/
def shortEscape : Nat → Option Char
  | 34 => some '"'
  | 92 => some '\\'
  | 8 => some 'b'
  | 12 => some 'f'
  | 10 => some 'n'
  | 13 => some 'r'
  | 9 => some 't'
  | _ => none

def unescape : Char → Option Nat
  | '"' => some 34
  | '\\' => some 92
  | '/' => some 47
  | 'b' => some 8
  | 'f' => some 12
  | 'n' => some 10
  | 'r' => some 13
  | 't' => some 9
  | _ => none

/-- Printable ASCII stands for itself, everything else is escaped. -/
def escapeUnit (u : CodePoint) : List Char :=
  match shortEscape u.val with
  | some e => ['\\', e]
  | none =>
    if 32 ≤ u.val ∧ u.val ≤ 126 then [Char.ofNat u.val]
    else ['\\', 'u', hexDigit (u.val / 4096 % 16), hexDigit (u.val / 256 % 16), hexDigit (u.val / 16 % 16),
      hexDigit (u.val % 16)]

def quote (s : Str) : List Char := '"' :: ((s.flatMap units).flatMap escapeUnit ++ ['"'])

def hex4 (a b c d : Char) : Option CodePoint := do
  let w ← hexValue a
  let x ← hexValue b
  let y ← hexValue c
  let z ← hexValue d
  pure (Fin.ofNat 0x110000 (((w * 16 + x) * 16 + y) * 16 + z))

def scanEscape (cs : List Char) : Option (CodePoint × List Char) :=
  match cs with
  | [] => none
  | e :: rest =>
    if e = 'u' then
      match rest with
      | w :: x :: y :: z :: rest => (hex4 w x y z).map fun u => (u, rest)
      | _ => none
    else (unescape e).map fun u => (Fin.ofNat 0x110000 u, rest)

/-- One unit of a string. Control characters do not stand for themselves. -/
def scanUnit (c : Char) (cs : List Char) : Option (CodePoint × List Char) :=
  if c = '\\' then scanEscape cs
  else if c.toNat < 32 then none
  else some (ofChar c, cs)

def scanUnits : Nat → List Char → Option (List CodePoint × List Char)
  | 0, _ => none
  | _ + 1, [] => none
  | fuel + 1, c :: cs =>
    if c = '"' then some ([], cs)
    else do
      let p ← scanUnit c cs
      let q ← scanUnits fuel p.2
      pure (p.1 :: q.1, q.2)

def scanString (cs : List Char) : Option (Str × List Char) :=
  (scanUnits (cs.length + 1) cs).map fun p => (joinSurrogates p.1, p.2)

theorem hexValue_hexDigit : ∀ n < 16, hexValue (hexDigit n) = some n := by decide

variable {n : Nat} {e : Char}

theorem hex4_hexDigit (h : u.val < 0x10000) :
    hex4 (hexDigit (u.val / 4096 % 16)) (hexDigit (u.val / 256 % 16)) (hexDigit (u.val / 16 % 16))
      (hexDigit (u.val % 16)) = some u := by
  have hdigit : ∀ n, hexValue (hexDigit (n % 16)) = some (n % 16) := fun n =>
    hexValue_hexDigit _ (Nat.mod_lt _ (by decide))
  simp only [hex4, hdigit, bind_eq_bind, bind_some, Option.pure_def]
  congr 1
  apply Fin.ext
  simp only [Fin.ofNat]
  omega

theorem unescape_shortEscape (h : shortEscape n = some e) :
    unescape e = some n ∧ e ≠ 'u' := by
  rw [shortEscape.eq_def] at h
  split at h <;> cases h <;> decide

theorem scanEscape_hex {w x y z : Char} (h : hex4 w x y z = some u) (rest : List Char) :
    scanEscape ('u' :: w :: x :: y :: z :: rest) = some (u, rest) := by
  simp only [scanEscape, if_true, h, map_some]

theorem scanEscape_short (h : unescape e = some n) (hu : e ≠ 'u') (rest : List Char) :
    scanEscape (e :: rest) = some (Fin.ofNat 0x110000 n, rest) := by
  simp only [scanEscape, if_neg hu, h, map_some]

theorem toNat_ofNat (h : n ≤ 126) : (Char.ofNat n).toNat = n := by
  have hvalid : n.isValidChar := .inl (by omega)
  rw [Char.ofNat, dif_pos hvalid]
  rfl

theorem scanUnit_escapeUnit (h : u.val < 0x10000) (rest : List Char) :
    ∃ c cs, escapeUnit u ++ rest = c :: cs ∧ c ≠ '"' ∧ scanUnit c cs = some (u, rest) := by
  have hself : Fin.ofNat 0x110000 u.val = u := Fin.ofNat_val_eq_self u
  rw [escapeUnit]
  cases hshort : shortEscape u.val with
  | some e =>
    obtain ⟨he, hu⟩ := unescape_shortEscape hshort
    refine ⟨'\\', e :: rest, rfl, by decide, ?_⟩
    rw [scanUnit, if_pos rfl, scanEscape_short he hu, hself]
  | none =>
    by_cases hplain : 32 ≤ u.val ∧ u.val ≤ 126
    · have hval := toNat_ofNat hplain.2
      have hne : ∀ c : Char, (shortEscape c.toNat).isSome → Char.ofNat u.val ≠ c := by
        intro c hc he
        rw [← he, hval, hshort] at hc
        cases hc
      refine ⟨Char.ofNat u.val, rest, by simp [hplain], hne '"' rfl, ?_⟩
      rw [scanUnit, if_neg (hne '\\' rfl), hval, if_neg (by omega), ofChar, hval, hself]
    · refine ⟨'\\', _, by simp only [if_neg hplain]; rfl, by decide, ?_⟩
      rw [scanUnit, if_pos rfl]
      exact scanEscape_hex (hex4_hexDigit h) rest

theorem scanUnits_escaped (h : ∀ u ∈ us, u.val < 0x10000) (rest : List Char) {fuel : Nat} (hfuel : us.length < fuel) :
    scanUnits fuel (us.flatMap escapeUnit ++ '"' :: rest) = some (us, rest) := by
  induction us generalizing fuel with
  | nil =>
    obtain ⟨fuel, rfl⟩ := Nat.exists_eq_succ_of_ne_zero (Nat.ne_of_gt hfuel)
    rfl
  | cons u us ih =>
    obtain ⟨fuel, rfl⟩ := Nat.exists_eq_succ_of_ne_zero (Nat.ne_of_gt (Nat.zero_lt_of_lt hfuel))
    obtain ⟨hu, hus⟩ := forall_mem_cons.mp h
    obtain ⟨c, cs, htext, hc, hscan⟩ := scanUnit_escapeUnit hu (us.flatMap escapeUnit ++ '"' :: rest)
    have htail := ih hus (Nat.lt_of_succ_lt_succ hfuel)
    rw [flatMap_cons, append_assoc, htext, scanUnits, if_neg hc, hscan]
    simp only [bind_eq_bind, bind_some, htail, Option.pure_def]

theorem length_le_escaped (us : List CodePoint) : us.length ≤ (us.flatMap escapeUnit).length := by
  induction us with
  | nil => exact Nat.le_refl _
  | cons u us ih =>
    have hpos : 0 < (escapeUnit u).length := by
      rw [escapeUnit]
      split
      · exact Nat.zero_lt_succ _
      · split <;> exact Nat.zero_lt_succ _
    rw [flatMap_cons, length_append, length_cons]
    omega

theorem scanString_quote {s : Str} (h : Joined s) (rest : List Char) :
    ∃ cs, quote s ++ rest = '"' :: cs ∧ scanString cs = some (s, rest) := by
  have hsmall : ∀ u ∈ s.flatMap units, u.val < 0x10000 := by
    intro u hu
    obtain ⟨c, -, hc⟩ := mem_flatMap.mp hu
    exact units_small hc
  refine ⟨(s.flatMap units).flatMap escapeUnit ++ '"' :: rest, by simp [quote], ?_⟩
  have hlen := length_le_escaped (s.flatMap units)
  rw [scanString, scanUnits_escaped hsmall rest (by simp only [length_append]; omega), map_some,
    joinSurrogates_units h]

end Onnxsim.Lib.JsonStrings
