import WordMachine.Chunks
import WordMachine.Memory.Basic
import WordMachine.Text.Blank

/-! # Memory images as text

The encodings in which a memory image is written and read: one byte per line in a radix, or Base64, with a codec
that is given.  Reading in a radix skips every character that is no digit, so separators and blanks do not matter.
-/

namespace WordMachine

inductive Encoding where
  /-- One byte per line, with all its digits. -/
  | digits (radix : Radix)
  | base64Url
  deriving Repr, DecidableEq, BEq

namespace Encoding

def standard : Encoding := .digits .binary

def name : Encoding → String
  | .digits radix => radix.name
  | .base64Url => "base64url"

/-- The encoding with a given name, in any ASCII case. -/
def ofName? (name : String) : Except Radix.Error Encoding :=
  match String.ofList (name.toList.map Char.toLower) with
  | "base64" | "base64url" => .ok .base64Url
  | _ => (Radix.ofName? name).map .digits

end Encoding

namespace Memory

/-- The byte that a group of digits spells. -/
def byteOfDigits (radix : Radix) (group : List Char) : Except Fault UInt8 := do
  let value ← (radix.parseDigits group).mapError .radix
  if value < 256 then return UInt8.ofNat value
  else .error (.byteOverflow (String.ofList group))

def ofText (codec : Base64Url.Codec) (encoding : Encoding) (text : String) : Except Fault Memory :=
  match encoding with
  | .digits radix => do
      let groups := chunks radix.digitsPerByte (text.toList.filter radix.isDigit)
      return ofBytes (← groups.mapM (byteOfDigits radix))
  | .base64Url => do
      let bytes ← (codec.decode (Text.trim text.toList)).mapError .base64
      return ofBytes bytes

def toText (codec : Base64Url.Codec) (encoding : Encoding) (memory : Memory) : String :=
  match encoding with
  | .digits radix =>
      "\n".intercalate (memory.bytes.toList.map fun byte => String.ofList (radix.formatByte byte))
  | .base64Url => String.ofList (codec.encode memory.bytes.toList)

end Memory

end WordMachine
