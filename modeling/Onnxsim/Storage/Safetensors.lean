import Onnxsim.Lib.Readers
import Onnxsim.Storage.Pool

namespace Onnxsim.Storage.HeaderParser

open Lib.Bytes Lib.Readers Pool

abbrev Parser (α : Type) := Reader Byte String α

structure TensorHeader where
  name : ByteString
  dtype : ByteString := []
  shape : List Int64 := []
  beginOff : Nat := 0
  endOff : Nat := 0
  deriving DecidableEq

def failAt {α : Type} (pos : Nat) (what : String) : Except String α :=
  .error ("tensor_pool: malformed safetensors header at byte " ++ toString pos ++ ": " ++ what)

def fail {α : Type} (what : String) : Parser α := fun c => failAt c.pos what

def peek : Parser Byte := fun c =>
  match c.rest with
  | [] => failAt c.pos "unexpected end of header"
  | b :: _ => .ok (b, c)

def next : Parser Byte := fun c =>
  match c.rest with
  | [] => failAt c.pos "unexpected end of header"
  | b :: rest => .ok (b, ⟨c.pos + 1, rest⟩)

def expect (b : Byte) : Parser Unit := do
  let b' ← next
  if b' = b then pure ()
  else fail ("expected '" ++ (Char.ofNat b.val).toString ++ "'")

/-- `std::isspace` in the C locale. -/
def isSpace (b : Byte) : Bool := b = 32 || (9 ≤ b.val && b.val ≤ 13)

def isAlpha (b : Byte) : Bool := (65 ≤ b.val && b.val ≤ 90) || (97 ≤ b.val && b.val ≤ 122)

def skipWhile (p : Byte → Bool) : Parser ByteString := fun c =>
  .ok (c.rest.takeWhile p, ⟨c.pos + (c.rest.takeWhile p).length, c.rest.dropWhile p⟩)

def skipWs : Parser Unit := do
  let _ ← skipWhile isSpace
  pure ()

def hexValue (h : Byte) : Option Nat :=
  if 48 ≤ h.val ∧ h.val ≤ 57 then some (h.val - 48)
  else if 97 ≤ h.val ∧ h.val ≤ 102 then some (h.val - 97 + 10)
  else if 65 ≤ h.val ∧ h.val ≤ 70 then some (h.val - 65 + 10)
  else none

def hexNumber : ByteString → Option Nat :=
  List.foldl (fun acc h => do
    let cp ← acc
    let d ← hexValue h
    pure (cp * 16 + d)) (some 0)

def unescape (e : Byte) : Option Byte :=
  if e = 34 then some 34
  else if e = 92 then some 92
  else if e = 47 then some 47
  else if e = 110 then some 10
  else if e = 116 then some 9
  else if e = 114 then some 13
  else none

/-- The loop of `ParseString` after the opening quote; `out` is what it has decoded so far. -/
def parseStringBody : ByteString → Nat → ByteString → Except String (ByteString × Cursor Byte)
  | [], pos, _ => failAt pos "unexpected end of header"
  | c :: rest, pos, out =>
    if c = 34 then .ok (out, ⟨pos + 1, rest⟩)
    else if c = 92 then
      match rest with
      | [] => failAt (pos + 1) "unexpected end of header"
      | e :: rest =>
        if e = 117 then
          match rest with
          | h₀ :: h₁ :: h₂ :: h₃ :: rest =>
            match hexNumber [h₀, h₁, h₂, h₃] with
            | none => failAt (pos + 2) "invalid \\u escape"
            | some cp => parseStringBody rest (pos + 6) (out ++ [if cp < 128 then Fin.ofNat 256 cp else 63])
          | _ => failAt (pos + 2) "truncated \\u escape"
        else
          match unescape e with
          | none => failAt (pos + 2) "invalid escape"
          | some b => parseStringBody rest (pos + 2) (out ++ [b])
    else parseStringBody rest (pos + 1) (out ++ [c])

def parseString : Parser ByteString := do
  expect 34
  fun c => parseStringBody c.rest c.pos []

/-- `std::stoll` on an optional sign and a run of digits. -/
def stoll (negative : Bool) (digits : ByteString) : Except String Int64 :=
  let v : Int := if negative then -(digitsValue digits : Int) else digitsValue digits
  if digits = [] then .error "stoll"
  else if v < -2 ^ 63 ∨ 2 ^ 63 ≤ v then .error "stoll"
  else .ok (Int64.ofInt v)

def parseSign : Parser (Option Byte) := fun c =>
  match c.rest with
  | b :: rest => if b = 45 ∨ b = 43 then .ok (some b, ⟨c.pos + 1, rest⟩) else .ok (none, c)
  | [] => .ok (none, c)

def parseInt : Parser Int64 := do
  let sign ← parseSign
  let digits ← skipWhile isDigit
  if sign = none ∧ digits = [] then fail "expected integer"
  else fun c => do
    let v ← stoll (sign = some 45) digits
    pure (v, c)

def parseIntArrayLoop : Nat → List Int64 → Parser (List Int64)
  | 0, _ => fail "expected ',' or ']' in array"
  | fuel + 1, out => do
    skipWs
    let i ← parseInt
    skipWs
    let c ← next
    if c = 44 then parseIntArrayLoop fuel (out ++ [i])
    else if c = 93 then pure (out ++ [i])
    else fail "expected ',' or ']' in array"

/-- Two nested rounds of the loops below read at least one byte, so this fuel never runs out. -/
def withFuel {α : Type} (p : Nat → Parser α) : Parser α := fun c => p (2 * c.rest.length + 2) c

def parseIntArray : Parser (List Int64) := do
  expect 91
  skipWs
  let c ← peek
  if c = 93 then
    let _ ← next
    pure []
  else withFuel fun fuel => parseIntArrayLoop fuel []

mutual

def skipValue : Nat → Parser Unit
  | 0 => fail "unexpected character while skipping value"
  | fuel + 1 => do
    skipWs
    let c ← peek
    if c = 34 then
      let _ ← parseString
    else if c = 123 then
      let _ ← next
      skipWs
      let c ← peek
      if c = 125 then
        let _ ← next
      else skipObjectLoop fuel
    else if c = 91 then
      let _ ← next
      skipWs
      let c ← peek
      if c = 93 then
        let _ ← next
      else skipArrayLoop fuel
    else if c = 116 ∨ c = 102 ∨ c = 110 then
      let _ ← skipWhile isAlpha
    else
      let s ← skipWhile fun b => isDigit b || b = 45 || b = 43 || b = 46 || b = 101 || b = 69
      if s = [] then fail "unexpected character while skipping value"

def skipObjectLoop : Nat → Parser Unit
  | 0 => fail "expected ',' or '\x7d' while skipping object"
  | fuel + 1 => do
    skipWs
    let _ ← parseString
    skipWs
    expect 58
    skipValue fuel
    skipWs
    let c ← next
    if c = 44 then skipObjectLoop fuel
    else if c = 125 then pure ()
    else fail "expected ',' or '\x7d' while skipping object"

def skipArrayLoop : Nat → Parser Unit
  | 0 => fail "expected ',' or ']' while skipping array"
  | fuel + 1 => do
    skipValue fuel
    skipWs
    let c ← next
    if c = 44 then skipArrayLoop fuel
    else if c = 93 then pure ()
    else fail "expected ',' or ']' while skipping array"

end

/-- A member's name up to its value, as every member of the header's objects starts. -/
def parseKey : Parser ByteString := do
  skipWs
  let key ← parseString
  skipWs
  expect 58
  skipWs
  pure key

def parseField (key : ByteString) (th : TensorHeader) (haveOffsets : Bool) :
    Parser (TensorHeader × Bool) :=
  if key = ascii "dtype" then do
    let dtype ← parseString
    pure ({ th with dtype := dtype }, haveOffsets)
  else if key = ascii "shape" then do
    let shape ← parseIntArray
    pure ({ th with shape := shape }, haveOffsets)
  else if key = ascii "data_offsets" then do
    let off ← parseIntArray
    match off with
    | [b, e] =>
      if b.toInt < 0 ∨ e.toInt < b.toInt then
        fail "data_offsets must be a [begin, end] pair with begin <= end"
      else pure ({ th with beginOff := b.toInt.toNat, endOff := e.toInt.toNat }, true)
    | _ => fail "data_offsets must be a [begin, end] pair with begin <= end"
  else do
    withFuel skipValue
    pure (th, haveOffsets)

def parseTensorHeaderLoop : Nat → TensorHeader → Bool → Parser (TensorHeader × Bool)
  | 0, _, _ => fail "expected ',' or '\x7d' in tensor descriptor"
  | fuel + 1, th, haveOffsets => do
    let key ← parseKey
    let st ← parseField key th haveOffsets
    skipWs
    let c ← next
    if c = 44 then parseTensorHeaderLoop fuel st.1 st.2
    else if c = 125 then pure st
    else fail "expected ',' or '\x7d' in tensor descriptor"

def parseTensorHeader (name : ByteString) : Parser TensorHeader := do
  expect 123
  skipWs
  let c ← peek
  if c = 125 then
    let _ ← next
    fail "tensor descriptor missing dtype/shape/data_offsets"
  else
    let st ← withFuel fun fuel => parseTensorHeaderLoop fuel { name := name } false
    if st.1.dtype = [] ∨ st.2 = false then
      fail "tensor descriptor missing dtype or data_offsets"
    else pure st.1

def parseMember (key : ByteString) (out : List TensorHeader) : Parser (List TensorHeader) :=
  if key = ascii "__metadata__" then do
    withFuel skipValue
    pure out
  else do
    let th ← parseTensorHeader key
    pure (out ++ [th])

def parseLoop : Nat → List TensorHeader → Parser (List TensorHeader)
  | 0, _ => fail "expected ',' or '\x7d'"
  | fuel + 1, out => do
    let key ← parseKey
    let out ← parseMember key out
    skipWs
    let c ← next
    if c = 44 then parseLoop fuel out
    else if c = 125 then pure out
    else fail "expected ',' or '\x7d'"

def parse : Parser (List TensorHeader) := do
  skipWs
  expect 123
  skipWs
  let c ← peek
  if c = 125 then
    let _ ← next
    pure []
  else withFuel fun fuel => parseLoop fuel []

end Onnxsim.Storage.HeaderParser

namespace Onnxsim.Storage.Safetensors

open Lib.Bytes Lib.OrderedMaps Pool HeaderParser

def hexDigit (d : Nat) : Byte := Fin.ofNat 256 (if d < 10 then 48 + d else 87 + d)

def escapeByte (c : Byte) : ByteString :=
  if c = 34 then [92, 34]
  else if c = 92 then [92, 92]
  else if c = 10 then [92, 110]
  else if c = 13 then [92, 114]
  else if c = 9 then [92, 116]
  else if c.val < 32 then [92, 117, 48, 48, hexDigit (c.val / 16), hexDigit (c.val % 16)]
  else [c]

def appendJsonEscaped (out s : ByteString) : ByteString := out ++ s.flatMap escapeByte

def joinComma : List ByteString → ByteString
  | [] => []
  | [s] => s
  | s :: rest => s ++ 44 :: joinComma rest

/-- The header text of one tensor whose bytes are `[begin, end)` of the data segment. -/
def descriptor (name : ByteString) (entry : Entry) (beginOff endOff : Nat) : ByteString :=
  appendJsonEscaped [34] name ++ ascii "\":\x7b\"dtype\":\"" ++ toSafetensors entry.dtype ++
    ascii "\",\"shape\":[" ++ joinComma (entry.shape.map fun d => decimalInt d.toInt) ++
    ascii "],\"data_offsets\":[" ++ decimal beginOff ++ [44] ++ decimal endOff ++ ascii "]\x7d"

/-- The `uint64_t` byte ranges `SaveSafetensors` gives the tensors, in walking order. -/
def offsetsFrom : Nat → List (ByteString × Entry) → List (ByteString × Entry × Nat × Nat)
  | _, [] => []
  | offset, (name, entry) :: rest =>
    let endOff := (offset + entry.data.length) % 2 ^ 64
    (name, entry, offset, endOff) :: offsetsFrom endOff rest

def headerText (pool : TensorPool) : ByteString :=
  padTo 8 32 ([123] ++ joinComma
    ((offsetsFrom 0 pool.entries).map fun t => descriptor t.1 t.2.1 t.2.2.1 t.2.2.2) ++ [125])

def fileBytes (pool : TensorPool) : ByteString :=
  leBytes 8 (headerText pool).length ++ headerText pool ++ pool.entries.flatMap fun p => p.2.data

/-- `TensorPool::SaveSafetensors`: the file it leaves at `path`, and `data_offsets_out`. -/
def saveSafetensors (pool : TensorPool) (path : String) :
    Except String (ByteString × SortedMap ByteString (Nat × Nat)) :=
  match pool.entries.find? (fun p => toSafetensors p.2.dtype = []) with
  | some (name, entry) =>
    .error ("TensorPool::SaveSafetensors: tensor '" ++ textOf name ++ "' has an ONNX dtype (" ++
      toString entry.dtype ++ ") with no safetensors representation")
  | none =>
    if maxFileSize ≤ (fileBytes pool).length then
      .error ("TensorPool::SaveSafetensors: write failed for '" ++ path ++ "'")
    else .ok (fileBytes pool,
      (offsetsFrom 0 pool.entries).foldl (fun m t => m.insert t.1 (t.2.2.1, t.2.2.2)) .empty)

/-- The loop of `LoadSafetensors` over the parsed headers; it leaves in the pool whatever it had
added when it throws. -/
def addTensors (path : String) (data : ByteString) : List TensorHeader → TensorPool →
    Except String Unit × TensorPool
  | [], pool => (.ok (), pool)
  | th :: rest, pool =>
    if data.length < th.endOff then
      (.error ("TensorPool::LoadSafetensors: '" ++ path ++ "' tensor '" ++ textOf th.name ++
        "' data_offsets [" ++ toString th.beginOff ++ ", " ++ toString th.endOff ++
        ") exceed the file's data segment (" ++ toString data.length ++ " bytes)"), pool)
    else
      let dtype := fromSafetensors th.dtype
      if dtype = onnxUndefined then
        (.error ("TensorPool::LoadSafetensors: '" ++ path ++ "' tensor '" ++ textOf th.name ++
          "' has unsupported dtype '" ++ textOf th.dtype ++ "'"), pool)
      else
        addTensors path data rest (pool.insert th.name
          ⟨dtype, th.shape, (data.drop th.beginOff).take (th.endOff - th.beginOff)⟩)

/-- `TensorPool::LoadSafetensors` on a file with these contents. -/
def loadSafetensors (pool : TensorPool) (path : String) (file : ByteString) :
    Except String Unit × TensorPool :=
  if file.length < 8 then
    (.error ("TensorPool::LoadSafetensors: '" ++ path ++
      "' is too small to be a safetensors file"), pool)
  else
    let headerLen := ofLE (file.take 8)
    if file.length - 8 < headerLen then
      (.error ("TensorPool::LoadSafetensors: '" ++ path ++ "' has an invalid header length"), pool)
    else
      match parse ⟨0, (file.drop 8).take headerLen⟩ with
      | .error e => (.error e, pool)
      | .ok (headers, _) => addTensors path (file.drop (8 + headerLen)) headers .empty

end Onnxsim.Storage.Safetensors
