import WordMachine.Bits
import WordMachine.Radix
import WordMachine.Text.Base64Url

/-! # Bit-addressable memory

Memory is whole bytes, addressed by bit: bit `i` is bit `7 - i % 8` of byte `i / 8`, so that a range of bits
reads as a big-endian number.  An access checks its whole range first and changes nothing if it is refused.

`bit_setBit` is the law of one bit; `bit_writeBits` extends it to a range.
-/

namespace WordMachine

structure Memory where
  bytes : Array UInt8
  deriving Repr, DecidableEq, BEq

namespace Memory

/-- Why an access to memory or the reading of a memory image is refused. -/
inductive Fault where
  /-- The range of bits does not lie in a memory of `size` bits. -/
  | outOfBounds (start length size : Nat)
  | fieldTooWide (length capacity : Nat)
  | valueTooWide (value length : Nat)
  | invalidBit (character : Char) (position : Nat)
  | byteOverflow (digits : String)
  | radix (error : Radix.Error)
  | base64 (error : Base64Url.Error)
  deriving Repr, DecidableEq, BEq

def Fault.message : Fault → String
  | .outOfBounds start length size =>
      s!"attempt to access {length} bits at bit {start}, outside of memory bounds ({size} bits)"
  | .fieldTooWide length capacity =>
      s!"a {length}-bit field does not fit in a {capacity}-bit integer"
  | .valueTooWide value length => s!"{value} does not fit in {length} bits"
  | .invalidBit character position => s!"`{character}` at position {position} is not a bit"
  | .byteOverflow digits => s!"`{digits}` is larger than a byte"
  | .radix error => error.message
  | .base64 error => s!"invalid base64url: {error.message}"

/-- The text of a fault, and then that of the error beneath it where the fault adds words of its own. -/
def Fault.messages (fault : Fault) : List String :=
  match fault with
  | .base64 error => [fault.message, error.message]
  | _ => [fault.message]

def empty : Memory := ⟨#[]⟩

def zeroed (count : Nat) : Memory := ⟨Array.replicate count 0⟩

def ofBytes (bytes : List UInt8) : Memory := ⟨bytes.toArray⟩

def size (memory : Memory) : Nat := memory.bytes.size

def bitSize (memory : Memory) : Nat := 8 * memory.size

def isEmpty (memory : Memory) : Bool := memory.size = 0

/-- The byte whose one set bit is the place of bit `index`. -/
def mask (index : Nat) : UInt8 := ⟨BitVec.twoPow 8 (7 - index % 8)⟩

/-- The bit at an index; past the end all bits are zero. -/
def bit (memory : Memory) (index : Nat) : Bool :=
  (memory.bytes.getD (index / 8) 0).toBitVec.getLsbD (7 - index % 8)

/-- Memory as the list of its bits, byte 0 first, the most significant bit of a byte first. -/
def bits (memory : Memory) : List Bool :=
  (List.range memory.bitSize).map memory.bit

/-- Memory with one bit replaced; an index past the end changes nothing. -/
def setBit (memory : Memory) (index : Nat) (bit : Bool) : Memory :=
  ⟨memory.bytes.modify (index / 8) fun byte => if bit then byte ||| mask index else byte &&& ~~~mask index⟩

def writeBits (memory : Memory) (start : Nat) : List Bool → Memory
  | [] => memory
  | bit :: rest => (memory.setBit start bit).writeBits (start + 1) rest

/-- The bits of a range that is known to lie in memory. -/
def readBits (memory : Memory) (start length : Nat) : List Bool :=
  (List.range length).map fun offset => memory.bit (start + offset)

def checkRange (memory : Memory) (start length : Nat) : Except Fault Unit :=
  if start + length ≤ memory.bitSize then .ok ()
  else .error (.outOfBounds start length memory.bitSize)

def getBits (memory : Memory) (start length : Nat) : Except Fault (List Bool) := do
  memory.checkRange start length
  return memory.readBits start length

def getBitString (memory : Memory) (start length : Nat) : Except Fault String := do
  let bits ← memory.getBits start length
  return String.ofList (bits.map fun bit => if bit then '1' else '0')

/-- The big-endian number that a range spells, which has to fit into `capacity` bits. -/
def getNumber (memory : Memory) (capacity start length : Nat) : Except Fault Nat := do
  -- The length is refused before the place of the range is looked at.
  if capacity < length then .error (.fieldTooWide length capacity)
  let bits ← memory.getBits start length
  return Bits.toNat bits

def setBits (memory : Memory) (start : Nat) (bits : List Bool) : Except Fault Memory := do
  memory.checkRange start bits.length
  return memory.writeBits start bits

/-- The bits that a string of `0` and `1` spells; `position` is the position of its first character. -/
def parseBits (position : Nat) : List Char → Except Fault (List Bool)
  | [] => .ok []
  | '0' :: rest => do return false :: (← parseBits (position + 1) rest)
  | '1' :: rest => do return true :: (← parseBits (position + 1) rest)
  | character :: _ => .error (.invalidBit character position)

def setBitString (memory : Memory) (start : Nat) (text : String) : Except Fault Memory := do
  memory.setBits start (← parseBits 0 text.toList)

/-- Replaces a range by a big-endian number with zeros in front. -/
def setNumber (memory : Memory) (start length value : Nat) : Except Fault Memory := do
  -- The number is refused before the place of the range is looked at.
  if length < Bits.width value then .error (.valueTooWide value length)
  memory.checkRange start length
  return memory.writeBits start (Bits.ofNat length value)

/-- No memory has as many bytes as this, half of what 64 bits can count. -/
def sizeBound : Nat := UInt64.size / 2

/-- Bit addresses are 64 bits wide. -/
def bitAddressBound : Nat := UInt64.size

/-- The address of the first bit of a byte.  A byte whose bits have no address is refused as if it stood at
    the last bit address. -/
def bitAddress (memory : Memory) (address length : Nat) : Except Fault Nat :=
  if 8 * address < bitAddressBound then .ok (8 * address)
  else .error (.outOfBounds (bitAddressBound - 1) length memory.bitSize)

def readByte (memory : Memory) (address : Nat) : Except Fault UInt8 := do
  let start ← memory.bitAddress address 8
  return UInt8.ofNat (← memory.getNumber 8 start 8)

def readWord (memory : Memory) (address : Nat) : Except Fault UInt16 := do
  let start ← memory.bitAddress address 16
  return UInt16.ofNat (← memory.getNumber 16 start 16)

def writeByte (memory : Memory) (address : Nat) (byte : UInt8) : Except Fault Memory := do
  memory.setNumber (← memory.bitAddress address 8) 8 byte.toNat

def writeWord (memory : Memory) (address : Nat) (word : UInt16) : Except Fault Memory := do
  memory.setNumber (← memory.bitAddress address 16) 16 word.toNat

@[simp] theorem size_zeroed (count : Nat) : (zeroed count).size = count := by
  simp [zeroed, size]

@[simp] theorem length_bits (memory : Memory) : memory.bits.length = memory.bitSize := by
  simp [bits]

@[simp] theorem size_setBit (memory : Memory) (index : Nat) (bit : Bool) :
    (memory.setBit index bit).size = memory.size := by
  simp [setBit, size]

@[simp] theorem size_writeBits (memory : Memory) (start : Nat) (bits : List Bool) :
    (memory.writeBits start bits).size = memory.size := by
  induction bits generalizing memory start with
  | nil => rfl
  | cons bit rest ih => simp [writeBits, ih]

/-- Setting a bit changes that bit and no other. -/
theorem bit_setBit (memory : Memory) (index other : Nat) (value : Bool)
    (inside : index < memory.bitSize) :
    (memory.setBit index value).bit other = if other = index then value else memory.bit other := by
  have bound : index / 8 < memory.bytes.size := by
    simp only [bitSize, size] at inside
    omega
  -- In another byte nothing changes; in the same byte the mask tells the two bits apart.
  by_cases byte : other / 8 = index / 8
  · have place : other = index ↔ 7 - other % 8 = 7 - index % 8 := by omega
    have small : 7 - other % 8 < 8 := by omega
    simp only [bit, setBit, mask, byte, Array.getD_eq_getD_getElem?, Array.getElem?_modify, if_true,
      Array.getElem?_eq_getElem bound, Option.map_some, Option.getD_some, place]
    by_cases same : 7 - other % 8 = 7 - index % 8
    · have small : 7 - index % 8 < 8 := by omega
      cases value <;> simp [same, small]
    · cases value <;> simp [same, small]
  · have different : other ≠ index := fun same => byte (by rw [same])
    rw [if_neg different]
    simp only [bit, setBit, Array.getD_eq_getD_getElem?, Array.getElem?_modify,
      if_neg fun same : index / 8 = other / 8 => byte same.symm]

end Memory

end WordMachine
