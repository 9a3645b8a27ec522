import WordMachine.Proofs.Except
import WordMachine.Proofs.Memory.BitList

/-! # Memory as a list of bytes

Bytes and words are accessed bit by bit.  Said on the plain list of bytes, a byte is an entry, a word is two
neighbours of which the first is the more significant one, and a write replaces just these entries.
`accesses_are_big_endian` says that memory answers and changes like the list, and what a word reads as after a word
is written at any place.
-/

namespace WordMachine

namespace Memory

/-- A call that reads or writes a byte or a word. -/
inductive ByteAccess where
  | readByte (address : Nat)
  | readWord (address : Nat)
  | writeByte (address : Nat) (byte : UInt8)
  | writeWord (address : Nat) (word : UInt16)

def performBytewise (memory : Memory) : ByteAccess → Effect Memory
  | .readByte address => .ofRead memory .number ((memory.readByte address).map UInt8.toNat)
  | .readWord address => .ofRead memory .number ((memory.readWord address).map UInt16.toNat)
  | .writeByte address byte => .ofWrite memory (memory.writeByte address byte)
  | .writeWord address word => .ofWrite memory (memory.writeWord address word)

/-- A read answers the same under every view of the state. -/
theorem Effect.view_ofRead {State View α : Type} (view : State → View) (state : State) (answer : α → Answer)
    (result : Except Fault α) : (ofRead state answer result).map view = ofRead (view state) answer result :=
  rfl

end Memory

namespace ByteList

open Memory (ByteAccess Effect)

/-- The fault of an access to `count` bytes that do not all exist.  It reports the bit address of the first byte, or
    the last bit address of 64 bits if the first byte has none. -/
def fault (bytes : List UInt8) (address count : Nat) : Memory.Fault :=
  .outOfBounds (if 8 * address < 2 ^ 64 then 8 * address else 2 ^ 64 - 1) (8 * count) (8 * bytes.length)

def readByte (bytes : List UInt8) (address : Nat) : Except Memory.Fault Nat :=
  match bytes[address]? with
  | some byte => .ok byte.toNat
  | none => .error (fault bytes address 1)

def readWord (bytes : List UInt8) (address : Nat) : Except Memory.Fault Nat :=
  match bytes[address]?, bytes[address + 1]? with
  | some high, some low => .ok (256 * high.toNat + low.toNat)
  | _, _ => .error (fault bytes address 2)

def writeByte (bytes : List UInt8) (address : Nat) (byte : UInt8) : Except Memory.Fault (List UInt8) :=
  if address < bytes.length then .ok (bytes.set address byte) else .error (fault bytes address 1)

def writeWord (bytes : List UInt8) (address : Nat) (word : UInt16) : Except Memory.Fault (List UInt8) :=
  if address + 1 < bytes.length then
    .ok ((bytes.set address (UInt8.ofNat (word.toNat / 256))).set (address + 1) (UInt8.ofNat (word.toNat % 256)))
  else .error (fault bytes address 2)

/-- The meaning of an access. -/
def perform (bytes : List UInt8) : ByteAccess → Effect (List UInt8)
  | .readByte address => .ofRead bytes .number (readByte bytes address)
  | .readWord address => .ofRead bytes .number (readWord bytes address)
  | .writeByte address byte => .ofWrite bytes (writeByte bytes address byte)
  | .writeWord address word => .ofWrite bytes (writeWord bytes address word)

/-- What a word reads as that is not `word` itself, once `word` is written at `address`: a word next to it shares one
    byte with it, all others stay. -/
def mixed (address other word old : Nat) : Nat :=
  if other = address + 1 then 256 * (word % 256) + old % 256
  else if other + 1 = address then 256 * (old / 256) + word / 256
  else old

theorem readWord_eq_error {bytes : List UInt8} {address : Nat} (outside : bytes.length < address + 2) :
    readWord bytes address = .error (fault bytes address 2) := by
  have missing : bytes[address + 1]? = none := List.getElem?_eq_none (by omega)
  simp only [readWord, missing]
  split
  next found => cases found
  next => rfl

section Written

variable {bytes written : List UInt8} {address : Nat} {word : UInt16}
  (success : writeWord bytes address word = .ok written)

include success

theorem inside_of_writeWord : address + 1 < bytes.length := by
  refine Decidable.byContradiction fun outside => ?_
  rw [writeWord, if_neg outside] at success
  cases success

theorem length_of_writeWord : written.length = bytes.length := by
  rw [writeWord, if_pos (inside_of_writeWord success), Except.ok.injEq] at success
  simp only [← success, List.length_set]

/-- Two entries are those of the word, and all others stay. -/
theorem getElem?_of_writeWord (index : Nat) :
    written[index]? =
      if index = address then some (UInt8.ofNat (word.toNat / 256))
      else if index = address + 1 then some (UInt8.ofNat (word.toNat % 256))
      else bytes[index]? := by
  have inside := inside_of_writeWord success
  rw [writeWord, if_pos inside, Except.ok.injEq] at success
  rw [← success, List.getElem?_set, List.getElem?_set]
  grind

/-- A word that is written is read back. -/
theorem readWord_of_writeWord : readWord written address = .ok word.toNat := by
  have bound : word.toNat < 65536 := word.toNat_lt
  simp only [readWord, getElem?_of_writeWord success, if_true, Nat.succ_ne_self, if_false, UInt8.toNat_ofNat',
    Except.ok.injEq]
  omega

/-- All other words keep the bytes that they do not share with the written one. -/
theorem readWord_of_writeWord_of_ne {other : Nat} (different : other ≠ address) :
    readWord written other = (readWord bytes other).map (mixed address other word.toNat) := by
  rcases Nat.lt_or_ge bytes.length (other + 2) with outside | inside
  · rw [readWord_eq_error outside, readWord_eq_error (by rwa [length_of_writeWord success]), fault, fault,
      length_of_writeWord success]
    rfl
  · obtain ⟨high, first⟩ : ∃ high, bytes[other]? = some high := ⟨_, List.getElem?_eq_getElem (by omega)⟩
    obtain ⟨low, second⟩ : ∃ low, bytes[other + 1]? = some low := ⟨_, List.getElem?_eq_getElem (by omega)⟩
    have bound : word.toNat < 65536 := word.toNat_lt
    have small : low.toNat < 256 := low.toNat_lt
    simp only [readWord, getElem?_of_writeWord success, first, second, Except.map, mixed, if_neg different]
    -- The words share the first byte of one and the second byte of the other, or nothing.
    by_cases behind : other = address + 1
    · have apart : other + 1 ≠ address ∧ other + 1 ≠ address + 1 := by omega
      simp only [behind ▸ apart, behind, if_true, if_false, UInt8.toNat_ofNat', Except.ok.injEq]
      omega
    · by_cases before : other + 1 = address
      · have apart : other ≠ address + 1 := behind
        simp only [apart, before, if_true, if_false, UInt8.toNat_ofNat', Except.ok.injEq]
        omega
      · have apart : other + 1 ≠ address + 1 := fun same => different (Nat.succ.inj same)
        simp only [behind, before, apart, if_false]

end Written

end ByteList

namespace Memory

section Views

variable {memory : Memory} (small : memory.size < 2 ^ 61)

theorem toList_putByte (memory : Memory) (address : Nat) (byte : UInt8) :
    (memory.putByte address byte).bytes.toList = memory.bytes.toList.set address byte := by
  simp [putByte]

/-- The fault of an access outside memory is that of the list of its bytes. -/
theorem outOfBounds_eq_fault (memory : Memory) (address count : Nat) :
    Fault.outOfBounds (reportedStart address) (8 * count) memory.bitSize =
      ByteList.fault memory.bytes.toList address count := by
  have start : reportedStart address = if 8 * address < 2 ^ 64 then 8 * address else 2 ^ 64 - 1 := by
    rw [reportedStart, bitAddressBound, UInt64.size]
    split <;> omega
  rw [ByteList.fault, start, Array.length_toList, bitSize, size]

include small

theorem addressable_of_inside {address : Nat} (inside : address < memory.size) : 8 * address < bitAddressBound :=
  addressable_of_lt (Nat.lt_trans inside small)

theorem readByte_eq_list (address : Nat) :
    (memory.readByte address).map UInt8.toNat = ByteList.readByte memory.bytes.toList address := by
  rw [ByteList.readByte, Array.getElem?_toList]
  rcases Nat.lt_or_ge address memory.size with inside | outside
  · have found : memory.bytes[address]? = some memory.bytes[address] := Array.getElem?_eq_getElem inside
    rw [found, readByte_eq_ok (addressable_of_inside small inside) found]
    rfl
  · rw [Array.getElem?_eq_none outside, readByte_outside outside]
    exact congrArg Except.error (outOfBounds_eq_fault memory address 1)

theorem readWord_eq_list (address : Nat) :
    (memory.readWord address).map UInt16.toNat = ByteList.readWord memory.bytes.toList address := by
  rcases Nat.lt_or_ge memory.size (address + 2) with outside | inside
  · rw [readWord_outside outside, ByteList.readWord_eq_error (by rwa [Array.length_toList])]
    exact congrArg Except.error (outOfBounds_eq_fault memory address 2)
  · have near : address < memory.size := Nat.lt_of_succ_lt inside
    obtain ⟨high, first⟩ : ∃ high, memory.bytes[address]? = some high := ⟨_, Array.getElem?_eq_getElem near⟩
    obtain ⟨low, second⟩ : ∃ low, memory.bytes[address + 1]? = some low := ⟨_, Array.getElem?_eq_getElem inside⟩
    have narrow : 256 * high.toNat + low.toNat < UInt16.size := by
      have := high.toNat_lt
      have := low.toNat_lt
      rw [UInt16.size]
      omega
    rw [ByteList.readWord, Array.getElem?_toList, Array.getElem?_toList, first, second,
      readWord_eq_ok (addressable_of_inside small near) first second]
    exact congrArg Except.ok (UInt16.toNat_ofNat_of_lt' narrow)

theorem writeByte_eq_list (address : Nat) (byte : UInt8) :
    (memory.writeByte address byte).map (·.bytes.toList) = ByteList.writeByte memory.bytes.toList address byte := by
  rw [ByteList.writeByte, Array.length_toList]
  rcases Nat.lt_or_ge address memory.size with inside | outside
  · have room : address < memory.bytes.size := inside
    rw [if_pos room, writeByte_eq_ok (addressable_of_inside small inside) inside]
    exact congrArg Except.ok (toList_putByte memory address byte)
  · have beyond : ¬ address < memory.bytes.size := Nat.not_lt.2 outside
    rw [if_neg beyond, writeByte_outside outside]
    exact congrArg Except.error (outOfBounds_eq_fault memory address 1)

theorem writeWord_eq_list (address : Nat) (word : UInt16) :
    (memory.writeWord address word).map (·.bytes.toList) = ByteList.writeWord memory.bytes.toList address word := by
  have low : UInt8.ofNat (word.toNat % 256) = UInt8.ofNat word.toNat := UInt8.toNat_inj.1 (by simp)
  rw [ByteList.writeWord, low, Array.length_toList]
  rcases Nat.lt_or_ge memory.size (address + 2) with outside | inside
  · have beyond : ¬ address + 1 < memory.bytes.size := Nat.not_lt.2 (Nat.le_of_lt_succ outside)
    rw [if_neg beyond, writeWord_outside outside]
    exact congrArg Except.error (outOfBounds_eq_fault memory address 2)
  · have room : address + 1 < memory.bytes.size := inside
    rw [if_pos room, writeWord_eq_ok (addressable_of_inside small (Nat.lt_of_succ_lt inside)) inside]
    simp only [wordBytes, putBytes, Except.map, toList_putByte]

/-- An access to a byte or a word of memory is that access to the list of bytes. -/
theorem map_bytes_performBytewise (access : ByteAccess) :
    (memory.performBytewise access).map (·.bytes.toList) = ByteList.perform memory.bytes.toList access := by
  cases access with
  | readByte address => rw [performBytewise, ByteList.perform, ← readByte_eq_list small, Effect.view_ofRead]
  | readWord address => rw [performBytewise, ByteList.perform, ← readWord_eq_list small, Effect.view_ofRead]
  | writeByte address byte => rw [performBytewise, ByteList.perform, Effect.map_ofWrite, writeByte_eq_list small]
  | writeWord address word => rw [performBytewise, ByteList.perform, Effect.map_ofWrite, writeWord_eq_list small]

end Views

/-- Bytes and words are entries of the list of bytes, the more significant byte of a word first.  Whatever byte or
    word is read or written, memory answers and changes as the list does, and what is refused is refused for the same
    fault and changes nothing.  So a word that is written is read back, a word that is one apart shares one byte with
    it, and all words that are further away stay. -/
theorem accesses_are_big_endian {memory : Memory} (small : memory.size < 2 ^ 61) :
    (∀ access, (memory.performBytewise access).map (·.bytes.toList) =
        ByteList.perform memory.bytes.toList access) ∧
      ∀ address word written, memory.writeWord address word = .ok written →
        written.readWord address = .ok word ∧
        ∀ other ≠ address, (written.readWord other).map UInt16.toNat =
          (memory.readWord other).map (ByteList.mixed address other word.toNat ∘ UInt16.toNat) := by
  refine ⟨map_bytes_performBytewise small, fun address word written success => ?_⟩
  have listed : ByteList.writeWord memory.bytes.toList address word = .ok written.bytes.toList := by
    rw [← writeWord_eq_list small, success]
    rfl
  have sizes : written.size < 2 ^ 61 := by
    obtain ⟨-, -, rfl⟩ := writeWord_eq_ok_iff.1 success
    rwa [size_putBytes]
  constructor
  · have read := readWord_eq_list sizes address
    rw [ByteList.readWord_of_writeWord listed] at read
    obtain ⟨found, value, same⟩ := exists_of_map_eq_ok read
    rw [value, UInt16.toNat_inj.1 same]
  · intro other different
    rw [readWord_eq_list sizes, ByteList.readWord_of_writeWord_of_ne listed different, ← readWord_eq_list small]
    cases memory.readWord other <;> rfl

/-- A word at an odd place, and the words that overlap it. -/
theorem accesses_are_big_endian_overlapping :
    (ofBytes [0x11, 0x22, 0x33, 0x44]).size < 2 ^ 61 ∧
      (ofBytes [0x11, 0xAB, 0xCD, 0x44]).readWord 1 = .ok 0xABCD ∧
      ((ofBytes [0x11, 0xAB, 0xCD, 0x44]).readWord 0).map UInt16.toNat = .ok 0x11AB ∧
      ((ofBytes [0x11, 0xAB, 0xCD, 0x44]).readWord 2).map UInt16.toNat = .ok 0xCD44 := by
  have small : (ofBytes [0x11, 0x22, 0x33, 0x44]).size < 2 ^ 61 := by decide
  have written : (ofBytes [0x11, 0x22, 0x33, 0x44]).writeWord 1 0xABCD = .ok (ofBytes [0x11, 0xAB, 0xCD, 0x44]) := by
    decide
  obtain ⟨-, mixes⟩ := accesses_are_big_endian small
  obtain ⟨same, others⟩ := mixes 1 0xABCD _ written
  exact ⟨small, same, others 0 (by decide), others 2 (by decide)⟩

end Memory

end WordMachine
