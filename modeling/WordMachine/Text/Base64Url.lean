/-! # Base64 text with the URL-safe alphabet

A codec is a parameter of all that reads and writes Base64.  What is documented of codecs is the algorithm of
`encode` and `decode`: three bytes are four symbols of six bits each, a last group of one or two bytes is two or
three symbols.  Writing adds no padding.  Reading takes a text with or without padding signs, and refuses a text
whose last symbol has bits that no byte uses; positions in its errors count bytes.
-/

namespace WordMachine.Base64Url

inductive Error where
  /-- A byte that is no symbol, or a padding sign out of place. -/
  | invalidByte (offset byte : Nat)
  /-- The text ends after the first symbol of a group. -/
  | invalidLength (length : Nat)
  /-- The last symbol has bits that belong to no byte. -/
  | invalidLastSymbol (offset byte : Nat)
  deriving Repr, DecidableEq, BEq

def Error.message : Error → String
  | .invalidByte offset byte => s!"Invalid symbol {byte}, offset {offset}."
  | .invalidLength length => s!"Invalid input length: {length}"
  | .invalidLastSymbol offset byte => s!"Invalid last symbol {byte}, offset {offset}."

/-- A library that writes bytes as text and reads them back. -/
structure Codec where
  encode : List UInt8 → List Char
  decode : List Char → Except Error (List UInt8)

def padding : Nat := '='.toNat

def symbol (value : Nat) : Char :=
  if value < 26 then Char.ofNat ('A'.toNat + value)
  else if value < 52 then Char.ofNat ('a'.toNat + (value - 26))
  else if value < 62 then Char.ofNat ('0'.toNat + (value - 52))
  else if value = 62 then '-'
  else '_'

def symbolValue? (byte : Nat) : Option Nat :=
  if 'A'.toNat ≤ byte ∧ byte ≤ 'Z'.toNat then some (byte - 'A'.toNat)
  else if 'a'.toNat ≤ byte ∧ byte ≤ 'z'.toNat then some (byte - 'a'.toNat + 26)
  else if '0'.toNat ≤ byte ∧ byte ≤ '9'.toNat then some (byte - '0'.toNat + 52)
  else if byte = '-'.toNat then some 62
  else if byte = '_'.toNat then some 63
  else none

def encode : List UInt8 → List Char
  | [] => []
  | [a] => [symbol (a.toNat / 4), symbol (a.toNat % 4 * 16)]
  | [a, b] =>
      [symbol (a.toNat / 4), symbol (a.toNat % 4 * 16 + b.toNat / 16), symbol (b.toNat % 16 * 4)]
  | a :: b :: c :: rest =>
      symbol (a.toNat / 4) :: symbol (a.toNat % 4 * 16 + b.toNat / 16) ::
        symbol (b.toNat % 16 * 4 + c.toNat / 64) :: symbol (c.toNat % 64) :: encode rest

def readSymbol (offset byte : Nat) : Except Error Nat :=
  match symbolValue? byte with
  | some value => .ok value
  | none => .error (.invalidByte offset byte)

def joinFour (a b c d : Nat) : List UInt8 :=
  [UInt8.ofNat (a * 4 + b / 16), UInt8.ofNat (b % 16 * 16 + c / 4), UInt8.ofNat (c % 4 * 64 + d)]

/-- The symbols at the start of the last group, as pairs of byte and value.  A padding sign may stand only
    where the group has two symbols already, and only more padding may follow it.  `place` counts the bytes
    of the group that are read, `pad?` is the place of its first padding sign. -/
def readLastSymbols (head place : Nat) (pad? : Option Nat) : List Nat → Except Error (List (Nat × Nat))
  | [] => .ok []
  | byte :: rest =>
      if byte = padding then
        -- One symbol is less than a byte, so padding cannot follow it.
        if place < 2 then .error (.invalidByte (head + place) byte)
        else readLastSymbols head (place + 1) (pad?.or (some place)) rest
      else
        match pad? with
        | some pad => .error (.invalidByte (head + pad) padding)
        | none => do
            let value ← readSymbol (head + place) byte
            let others ← readLastSymbols head (place + 1) none rest
            return (byte, value) :: others

/-- The bytes of the last group of a text, whose first byte stands at offset `head`. -/
def decodeLast (head : Nat) (group : List Nat) : Except Error (List UInt8) := do
  match ← readLastSymbols head 0 none group with
  | [] => return []
  | [_] => .error (.invalidLength (head + 1))
  | [(_, a), (last, b)] =>
      if b % 16 = 0 then return [UInt8.ofNat (a * 4 + b / 16)]
      else .error (.invalidLastSymbol (head + 1) last)
  | [(_, a), (_, b), (last, c)] =>
      if c % 4 = 0 then return [UInt8.ofNat (a * 4 + b / 16), UInt8.ofNat (b % 16 * 16 + c / 4)]
      else .error (.invalidLastSymbol (head + 2) last)
  | (_, a) :: (_, b) :: (_, c) :: (_, d) :: _ => return joinFour a b c d

/-- The bytes of a text from offset `head` on.  Every group but the last is four symbols. -/
def decodeFrom (head : Nat) : List Nat → Except Error (List UInt8)
  | a :: b :: c :: d :: e :: rest => do
      let a ← readSymbol head a
      let b ← readSymbol (head + 1) b
      let c ← readSymbol (head + 2) c
      let d ← readSymbol (head + 3) d
      let others ← decodeFrom (head + 4) (e :: rest)
      return joinFour a b c d ++ others
  | group => decodeLast head group

/-- The stray byte that a text ends with: one byte past its last full group that is neither a symbol nor a
    padding sign.  It is reported before all else. -/
def strayEnd? (text : List Nat) : Option Nat :=
  if text.length % 4 = 1 then
    text.getLast?.filter fun byte => byte ≠ padding && (symbolValue? byte).isNone
  else none

def decode (text : List Nat) : Except Error (List UInt8) :=
  match strayEnd? text with
  | some byte => .error (.invalidByte (text.length - 1) byte)
  | none => decodeFrom 0 text

def utf8 (text : List Char) : List Nat :=
  text.flatMap fun c => (String.utf8EncodeChar c).map UInt8.toNat

/-- A codec that keeps to its documentation. -/
structure Codec.Documented (codec : Codec) : Prop where
  encode_eq : ∀ bytes, codec.encode bytes = Base64Url.encode bytes
  /-- What is read are the bytes of the text. -/
  decode_eq : ∀ text, codec.decode text = Base64Url.decode (utf8 text)

/-- The documented algorithm as a codec. -/
def codec : Codec := ⟨encode, fun text => decode (utf8 text)⟩

theorem documented_codec : codec.Documented := ⟨fun _ => rfl, fun _ => rfl⟩

/-- Reading a symbol's character gives back its value. -/
theorem symbolValue?_symbol : ∀ value < 64, symbolValue? (symbol value).toNat = some value := by
  decide

end WordMachine.Base64Url
