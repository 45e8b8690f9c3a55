import Onnxsim.Lib.Bytes

namespace Onnxsim.Mcode.Tokens

open Lib.Bytes

/-- The options of `tokenize`, with its defaults. -/
structure Rule where
  tags : List Byte := [0x81, 0x82, 0x83, 0x84]
  pmax : Int := 3
  bare : Bool := false
  extraByteTags : List Byte := []
  verbs : List Byte := [0xA1, 0xA2, 0xA3, 0xA8, 0xA9]
  oddTags : List Byte := []
  companion : Bool := false
  quintet : Bool := false
  lookahead : Int := 0
  pairPrefix : Bool := false
  fixed5 : Bool := false
  vprefix : Bool := false
  octet : Bool := false
  template8 : Bool := false
  c1five : Bool := false
  «repeat» : Bool := false
  stutter : Bool := false
  nprefix : Bool := false
  terminal : Bool := false
  trailer : Bool := false

/-- `FULL_RULE` -/
def fullRule : Rule where
  tags := 0xA1 :: (List.range' 0x81 31).map (Fin.ofNat 256)
  pmax := 4
  bare := true
  extraByteTags := [0x9F]
  verbs := [0xA1, 0xA2, 0xA3, 0xA8, 0xA9, 0xA7]
  oddTags := [0xC1, 0xE1]
  companion := true
  quintet := true
  lookahead := 64
  pairPrefix := true
  fixed5 := true
  vprefix := true
  octet := true
  template8 := true
  c1five := true
  «repeat» := true
  stutter := true
  nprefix := true
  terminal := true
  trailer := true

/-- The kinds of a token, each with what the tuple carries after it. -/
inductive Form
  | V (verb field bank : Byte)
  | W (x field bank : Byte)
  | S (p tag payload : Byte)
  | B (tag reg : Byte)
  | Q (a b : Byte)
  | P (a b : Byte)
  | D (a b : Byte)
  | L
  | A (v : Byte)
  | N
  | F (w : Byte)
  | X
  | C (h a b d : Byte)
  | R (x : Byte)
  | E (a b : Byte)
  | T (r : Byte)
  | Y (a b : Byte)
  | raw (byte : Byte)
  deriving DecidableEq

structure Token where
  offset : Nat
  form : Form
  deriving DecidableEq

variable (r : Rule) (m : ByteString) (hi : Nat)

/-- A test of `mcode[i]`; `none` is the `IndexError`. -/
def test (i : Nat) (p : Byte → Bool) : Option Bool := m[i]?.map p

def reads (i : Nat) (b : Byte) : Option Bool := test m i (· == b)

/-- The bytes from `i` on, tested in turn. -/
def readsAll : Nat → List Byte → Option Bool
  | _, [] => some true
  | i, b :: bs => reads m i b <&&> readsAll (i + 1) bs

def isVerb (i : Nat) : Option Bool :=
  some (i + 3 < m.length) <&&> test m i (r.verbs.contains ·) <&&> reads m (i + 1) 0 <&&>
    test m (i + 2) (·.val % 0x10 == 0)

def companionAt (i : Nat) : Option Bool :=
  if !r.companion || hi < i + 15 then some false else do
    let field ← m[i + 1]?
    let bank ← m[i + 2]?
    if ← some (field.val % 0x10 == 0) <&&> readsAll m (i + 7) [0xA1, 0] then
      let nfield ← m[i + 9]?
      let nbank ← m[i + 10]?
      return nfield.val % 0x10 == 0 && (bank == nbank && nfield - field == 0x10 ||
        field == 0xF0 && nfield == 0 && nbank.val == bank.val + 1)
    else return false

def shortLen (i : Nat) : Option Nat :=
  if m.length ≤ i then some 0 else do
    let p ← m[i]?
    if ← some (p.val ≤ r.pmax && i + p.val + 3 < m.length) <&&> test m (i + p.val + 2) (r.tags.contains ·) then
      let tag ← m[i + p.val + 2]?
      return p.val + 4 + (if r.extraByteTags.contains tag then 1 else 0)
    else return 0

/-- `not companion_at(i)` -/
def noCompanion (i : Nat) : Option Bool := (companionAt r m hi i).map not

def quintetAt (i : Nat) : Option Bool :=
  some (r.quintet && i + 4 < m.length) <&&> reads m i 0x04 <&&>
    (do return (← m[i + 1]?) == (← m[i + 3]?)) <&&> (do return (← m[i + 2]?) == (← m[i + 4]?))

def octetAt (i : Nat) : Option Bool :=
  some (r.octet && i + 7 < m.length) <&&> readsAll m i [0x04, 0x40, 0x84, 0x18, 0x83] <&&> reads m (i + 7) 0x40 <&&>
    (quintetAt r m (i + 6)).map not <&&> noCompanion r m hi (i + 6) <&&> noCompanion r m hi (i + 7)

def template8At (i : Nat) : Option Bool :=
  some (r.template8 && i + 7 < m.length) <&&> readsAll m i [0x01, 0x98, 0x02, 0x83] <&&>
    readsAll m (i + 5) [0x83, 0x0E, 0x05] <&&> noCompanion r m hi i <&&> noCompanion r m hi (i + 1)

def c1fiveAt (i : Nat) : Option Bool :=
  some (r.c1five && i + 4 < m.length) <&&> test m i (fun b => b == 0x01 || b == 0x30) <&&> reads m (i + 3) 0xC1 <&&>
    test m (i + 4) (·.val % 2 == 0)

def repeatAt (i : Nat) : Option Bool :=
  some (r.repeat && i + 4 < m.length) <&&> readsAll m i [0x30, 0x03] <&&> readsAll m (i + 3) [0x03, 0x09]

def pairPrefixAt (i : Nat) : Option Bool :=
  if m.length ≤ i + 1 || !r.pairPrefix then some false else do
    if ← readsAll m i [0x05, 0x90] then
      (some (hi ≤ i + 2) <||> test m (i + 2) (·.val % 2 == 1)) <&&> noCompanion r m hi (i + 1)
    else
      readsAll m i [0x0B, 0x91] <&&> some (i + 5 < m.length) <&&> readsAll m (i + 2) [0xA1, 0, 0xB0, 0x03] <&&>
        noCompanion r m hi (i + 1)

def nprefixAt (i : Nat) : Option Bool :=
  some (r.nprefix && i + 11 < m.length) <&&>
    readsAll m i [0x09, 0x0C, 0x80, 0xFE, 0x01, 0x01, 0xA1, 0, 0xD0, 0x0C]

def fixed5At (i : Nat) : Option Bool :=
  some (r.fixed5 && i + 4 < m.length) <&&> readsAll m i [0x01, 0xA4, 0, 0xC1]

def vprefixAt (i : Nat) : Option Bool :=
  some (r.vprefix && i + 7 < m.length) <&&> readsAll m i [0x05, 0x10, 0xE2, 0x0E, 0xA1, 0, 0xC0, 0x81]

def terminalAt (i : Nat) : Option Bool :=
  some (r.terminal && 2 ≤ i && i + 9 < m.length) <&&> readsAll m i [0x0B, 0x01] <&&>
    readsAll m (i - 2) [0x82, 0x08] <&&> some ((m.drop (i + 2)).take 8 == List.replicate 8 0)

def trailerSingleAt (i : Nat) : Option Bool :=
  some (r.trailer && 2 ≤ i && i + 3 < m.length) <&&>
    test m i (fun b => b == 0x23 || b == 0x24 || b == 0x26 || b == 0x2B) <&&>
    some ((m.drop (i - 2)).take 2 == List.replicate 2 0) <&&> readsAll m (i + 1) [0xA7, 0] <&&>
    test m (i + 3) (·.val % 0x10 == 0)

/-- `is_verb(i) or short_len(i)` -/
def opens (i : Nat) : Option Bool := isVerb r m i <||> (shortLen r m i).map (· != 0)

/-- One greedy step, `_plain_step`. -/
def plainStep (i : Nat) : Option (Token × Nat) := do
  let byte ← m[i]?
  let sl ← shortLen r m i
  if ← companionAt r m hi i then return (⟨i, .W byte (← m[i + 1]?) (← m[i + 2]?)⟩, i + 7)
  else if ← isVerb r m i then
    let early ← (opens r m (i + 8)).map not <&&> opens r m (i + 7)
    return (⟨i, .V byte (← m[i + 2]?) (← m[i + 3]?)⟩, i + if early then 7 else 8)
  else if sl ≠ 0 then return (⟨i, .S byte (← m[i + sl - 2]?) (← m[i + 1]?)⟩, i + sl)
  else if ← quintetAt r m i then return (⟨i, .Q (← m[i + 1]?) (← m[i + 2]?)⟩, i + 5)
  else if ← pairPrefixAt r m hi i then
    let next ← m[i + 1]?
    return (⟨i, if byte = 0x0B then .P byte next else .D byte next⟩, i + 2)
  else if ← terminalAt r m i then return (⟨i, .L⟩, i + 2)
  else if ← trailerSingleAt r m i then return (⟨i, .A byte⟩, i + 1)
  else if ← nprefixAt r m i then return (⟨i, .N⟩, i + 6)
  else if ← fixed5At r m i then return (⟨i, .F (← m[i + 4]?)⟩, i + 5)
  else if ← vprefixAt r m i then return (⟨i, .X⟩, i + 4)
  else if ← c1fiveAt r m i then
    return (⟨i, .C byte (← m[i + 1]?) (← m[i + 2]?) (← m[i + 4]?)⟩, i + 5)
  else if ← repeatAt r m i then return (⟨i, .R (← m[i + 2]?)⟩, i + 5)
  else if ← some (r.bare && i + 1 < hi && r.tags.contains byte) <&&> test m (i + 1) (·.val % 2 == 0) then
    return (⟨i, .B byte (← m[i + 1]?)⟩, i + (2 + if r.extraByteTags.contains byte then 1 else 0))
  else if ← some (r.bare && i + 1 < hi && r.oddTags.contains byte) <&&> test m (i + 1) (·.val % 2 == 1) then
    return (⟨i, .B byte (← m[i + 1]?)⟩, i + 2)
  else return (⟨i, .raw byte⟩, i + 1)

def costOf (t : Token) : Option Nat :=
  match t.form with
  | .raw _ => (test m t.offset (· != 0)).map Bool.toNat
  | _ => some 0

/-- The loop of `_simulate_cost`. A step takes at least one byte, so `hi - i` rounds are enough. -/
def simulateLoop (stop : Int) : Nat → Nat → Option Nat
  | fuel, i => if (i : Int) < min stop hi then
      match fuel with
      | 0 => none
      | fuel + 1 => do
        let (tok, j) ← plainStep r m hi i
        return (← costOf m tok) + (← simulateLoop stop fuel j)
    else some 0

/-- `_simulate_cost(i, i + lookahead)` -/
def simulateCost (i : Nat) : Option Nat := simulateLoop r m hi (i + r.lookahead) (hi - i) i

/-- The cost of leaving the byte at `i` raw. -/
def skipCost (i : Nat) : Option Nat := do return (← test m i (· != 0)).toNat + (← simulateCost r m hi (i + 1))

def cheaper (a b : Option Nat) : Option Bool := do return (← a) < (← b)

def takesOctet (i : Nat) : Option Bool :=
  some (r.lookahead != 0 && r.octet) <&&> octetAt r m hi i <&&>
    cheaper (simulateCost r m hi (i + 8)) (skipCost r m hi i)

/-- A short unit of prefix `p` that ends where a verb begins is given up for the verb. -/
def yieldsToVerb (i nxt : Nat) (p : Byte) : Option Bool :=
  some (r.lookahead != 0) <&&> readsAll m (i + p.val + 2) [0xA1, 0] <&&> isVerb r m (i + p.val + 2) <&&>
    cheaper (skipCost r m hi i) (simulateCost r m hi nxt)

def takesTemplate (i nxt : Nat) : Option Bool :=
  some (r.lookahead != 0 && r.template8) <&&> template8At r m hi i <&&>
    cheaper (simulateCost r m hi (i + 8)) (simulateCost r m hi nxt)

def stutters (nxt : Nat) : Option Bool :=
  some (r.stutter && nxt + 1 < m.length) <&&> readsAll m (nxt - 2) [0x90, 0x03, 0x90, 0x03] <&&>
    noCompanion r m hi nxt <&&> (shortLen r m (nxt + 1)).map (· == 0) <&&> noCompanion r m hi (nxt + 1)

/-- The body of the loop of `tokenize`: the tokens it appends, and where it goes on. -/
def loopStep (i : Nat) : Option (List Token × Nat) := do
  if ← takesOctet r m hi i then return ([⟨i, .E (← m[i + 5]?) (← m[i + 6]?)⟩], i + 8)
  else
    let (tok, nxt) ← plainStep r m hi i
    match tok.form with
    | .S p _ _ =>
      if ← yieldsToVerb r m hi i nxt p then return ([⟨i, .raw (← m[i]?)⟩], i + 1)
      else if ← takesTemplate r m hi i nxt then return ([⟨i, .T (← m[i + 4]?)⟩], i + 8)
      else if ← stutters r m hi nxt then return ([tok, ⟨nxt, .Y 0x90 0x03⟩], nxt + 2)
      else return ([tok], nxt)
    | _ => return ([tok], nxt)

def tokenizeLoop : Nat → Nat → Option (List Token)
  | fuel, i => if i < hi then
      match fuel with
      | 0 => none
      | fuel + 1 => do
        let (ts, j) ← loopStep r m hi i
        return ts ++ (← tokenizeLoop fuel j)
    else some []

def tokenize (start : Nat) : Option (List Token) := tokenizeLoop r m hi (hi - start) start

end Onnxsim.Mcode.Tokens
