import Onnxsim.Mcode.Tokens

namespace Onnxsim.Mcode.Codec

open Lib.Bytes Tokens

/-- What a record of `decode` holds besides its offset, by its kind. -/
inductive Fields
  | V (verb field bank : Byte) (operand : ByteString)
  | W (x field bank : Byte) (operand : ByteString)
  | S (p : Byte) (payload : ByteString) (tag reg : Byte) (extra : ByteString)
  | B (tag reg : Byte) (extra : ByteString)
  | Q (a b : Byte)
  | P (a b : Byte)
  | D (a b : Byte)
  | N
  | F (w : Byte)
  | X
  | E (a b : Byte)
  | T (r : Byte)
  | C (h a b d : Byte)
  | R (x : Byte)
  | Y (a b : Byte)
  | L
  | A (v : Byte)
  | raw (byte : Byte)
  deriving DecidableEq

structure Record where
  offset : Nat
  fields : Fields
  deriving DecidableEq

variable (m : ByteString)

/-- `mcode[a:b]` -/
def slice (a b : Nat) : ByteString := (m.drop a).take (b - a)

/-- The record of the token at `o`, which has `n` bytes. -/
def fieldsOf (o n : Nat) : Form → Option Fields
  | .V verb field bank => some (.V verb field bank (slice m (o + 4) (o + n)))
  | .W x field bank => some (.W x field bank (slice m (o + 3) (o + 7)))
  | .S p _ _ => do
    let tag ← m[o + p.val + 2]?
    let reg ← m[o + p.val + 3]?
    return .S p (slice m (o + 1) (o + 1 + p.val + 1)) tag reg (slice m (o + p.val + 4) (o + n))
  | .B tag reg => some (.B tag reg (slice m (o + 2) (o + n)))
  | .Q a b => some (.Q a b)
  | .P a b => some (.P a b)
  | .D a b => some (.D a b)
  | .N => some .N
  | .F w => some (.F w)
  | .X => some .X
  | .E a b => some (.E a b)
  | .T r => some (.T r)
  | .C h a b d => some (.C h a b d)
  | .R x => some (.R x)
  | .Y a b => some (.Y a b)
  | .L => some .L
  | .A v => some (.A v)
  | .raw byte => some (.raw byte)

/-- The loop of `decode`: a token ends where the next one begins, the last one at `hi`. -/
def recordsOf (hi : Nat) : List Token → Option (List Record)
  | [] => some []
  | t :: toks => do
    let nxt := (toks.head?.map Token.offset).getD hi
    let fields ← fieldsOf m t.offset (nxt - t.offset) t.form
    return ⟨t.offset, fields⟩ :: (← recordsOf hi toks)

def decode (r : Rule) (lo hi : Nat) : Option (List Record) := do recordsOf m hi (← tokenize r m hi lo)

/-- The bytes `encode` writes for one record. -/
def bytesOf : Fields → ByteString
  | .V verb field bank operand => [verb, 0, field, bank] ++ operand
  | .W x field bank operand => [x, field, bank] ++ operand
  | .S p payload tag reg extra => [p] ++ payload ++ [tag, reg] ++ extra
  | .B tag reg extra => [tag, reg] ++ extra
  | .Q a b => [0x04, a, b, a, b]
  | .P a b | .D a b => [a, b]
  | .N => [0x09, 0x0C, 0x80, 0xFE, 0x01, 0x01]
  | .F w => [0x01, 0xA4, 0x00, 0xC1, w]
  | .X => [0x05, 0x10, 0xE2, 0x0E]
  | .E a b => [0x04, 0x40, 0x84, 0x18, 0x83, a, b, 0x40]
  | .T r => [0x01, 0x98, 0x02, 0x83, r, 0x83, 0x0E, 0x05]
  | .C h a b d => [h, a, b, 0xC1, d]
  | .R x => [0x30, 0x03, x, 0x03, 0x09]
  | .Y a b => [a, b]
  | .L => [0x0B, 0x01]
  | .A v => [v]
  | .raw byte => [byte]

def encode (records : List Record) : ByteString := records.flatMap fun r => bytesOf r.fields

end Onnxsim.Mcode.Codec
