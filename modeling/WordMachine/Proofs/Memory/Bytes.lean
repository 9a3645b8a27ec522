import Mathlib.Algebra.Group.Nat.Defs
import WordMachine.Memory.Basic

/-! # Memory as a sequence of bytes

Accesses go through memory bit by bit, programs think in bytes.  `writeBits_byte` says that the eight bits of a
byte at its place are that byte, and the accesses to bytes and words follow: they read and replace the entries of
the byte array, the more significant byte of a word first.
-/

namespace WordMachine

namespace Bits

/-- The first bits of a number spell its quotient, the last ones its remainder. -/
theorem ofNat_add (front back number : Nat) :
    ofNat (front + back) number = ofNat front (number / 2 ^ back) ++ ofNat back number := by
  induction back generalizing number with
  | zero => simp [ofNat]
  | succ back ih =>
      rw [← Nat.add_assoc, ofNat_succ, ih, ofNat_succ back, List.append_assoc,
        Nat.div_div_eq_div_mul, Nat.pow_succ, Nat.mul_comm (2 ^ back) 2]

theorem toNat_append (front back : List Bool) :
    toNat (front ++ back) = toNat front * 2 ^ back.length + toNat back := by
  -- Numbers grow at their end, so the induction is on the reversed bits.
  rw [← List.reverse_reverse back]
  induction back.reverse with
  | nil => simp
  | cons bit back ih =>
      rw [List.reverse_cons, ← List.append_assoc, toNat_append_singleton, ih, toNat_append_singleton,
        List.length_append, List.length_singleton, Nat.pow_succ, Nat.mul_add, Nat.add_assoc,
        Nat.mul_comm _ 2, Nat.mul_left_comm]

end Bits

namespace Memory

theorem bitSize_eq (memory : Memory) : memory.bitSize = 8 * memory.bytes.size := rfl

/-- Memory with one byte replaced; an address past the end changes nothing. -/
def putByte (memory : Memory) (address : Nat) (byte : UInt8) : Memory :=
  ⟨memory.bytes.setIfInBounds address byte⟩

/-- Memory with the bytes from an address on replaced. -/
def putBytes (memory : Memory) (address : Nat) : List UInt8 → Memory
  | [] => memory
  | byte :: rest => (memory.putByte address byte).putBytes (address + 1) rest

/-- The two bytes of a word, the more significant one first. -/
def wordBytes (word : Nat) : List UInt8 := [UInt8.ofNat (word / 256), UInt8.ofNat word]

@[simp] theorem length_wordBytes (word : Nat) : (wordBytes word).length = 2 := rfl

@[simp] theorem size_putByte (memory : Memory) (address : Nat) (byte : UInt8) :
    (memory.putByte address byte).size = memory.size := by
  simp [putByte, size]

theorem bytes_putByte (memory : Memory) (address other : Nat) (byte : UInt8)
    (inside : address < memory.size) :
    (memory.putByte address byte).bytes[other]? = if other = address then some byte else memory.bytes[other]? := by
  have bound : address < memory.bytes.size := inside
  by_cases same : other = address
  · subst same
    simp [putByte, bound]
  · rw [if_neg same]
    exact Array.getElem?_setIfInBounds_ne (Ne.symm same)

@[simp] theorem size_putBytes (memory : Memory) (address : Nat) (bytes : List UInt8) :
    (memory.putBytes address bytes).size = memory.size := by
  induction bytes generalizing memory address with
  | nil => rfl
  | cons byte rest ih => rw [putBytes, ih, size_putByte]

theorem putBytes_append (memory : Memory) (address : Nat) (front back : List UInt8) :
    memory.putBytes address (front ++ back) =
      (memory.putBytes address front).putBytes (address + front.length) back := by
  induction front generalizing memory address with
  | nil => rfl
  | cons byte front ih =>
      rw [List.cons_append, putBytes, ih, putBytes, List.length_cons, Nat.add_assoc, Nat.add_comm 1]

/-- Replaced bytes read back, and all other bytes stay. -/
theorem bytes_putBytes (memory : Memory) (address other : Nat) (bytes : List UInt8)
    (inside : address + bytes.length ≤ memory.size) :
    (memory.putBytes address bytes).bytes[other]? =
      if address ≤ other then bytes[other - address]?.or memory.bytes[other]? else memory.bytes[other]? := by
  induction bytes generalizing memory address with
  | nil => simp [putBytes]
  | cons byte rest ih =>
      rw [List.length_cons] at inside
      rw [putBytes, ih _ _ (by rw [size_putByte]; omega), bytes_putByte _ _ _ _ (by omega)]
      rcases Nat.lt_trichotomy other address with below | rfl | above
      · rw [if_neg (by omega), if_neg (by omega), if_neg (by omega)]
      · rw [if_neg (by omega), if_pos rfl, if_pos (Nat.le_refl _), Nat.sub_self]
        rfl
      · rw [if_pos (by omega), if_neg (by omega), if_pos (by omega),
          show other - address = other - (address + 1) + 1 by omega, List.getElem?_cons_succ]

/-- Whether some bytes stand in memory from an address on. -/
def Holds (memory : Memory) (address : Nat) (bytes : List UInt8) : Prop :=
  ∀ offset < bytes.length, memory.bytes[address + offset]? = bytes[offset]?

theorem bit_putByte (memory : Memory) (address index : Nat) (byte : UInt8)
    (inside : address < memory.size) :
    (memory.putByte address byte).bit index =
      if index / 8 = address then byte.toNat.testBit (7 - index % 8) else memory.bit index := by
  unfold bit
  rw [Array.getD_eq_getD_getElem?, bytes_putByte memory address _ byte inside]
  split
  · rfl
  · rw [Array.getD_eq_getD_getElem?]

/-- A range of written bits reads back, and all other bits stay. -/
theorem bit_writeBits (memory : Memory) (start index : Nat) (bits : List Bool)
    (inside : start + bits.length ≤ memory.bitSize) :
    (memory.writeBits start bits).bit index =
      if start ≤ index then bits[index - start]?.getD (memory.bit index) else memory.bit index := by
  induction bits generalizing memory start with
  | nil => simp [writeBits]
  | cons bit rest ih =>
      rw [List.length_cons] at inside
      have first : start < memory.bitSize := by omega
      have others : start + 1 + rest.length ≤ (memory.setBit start bit).bitSize := by
        rw [bitSize, size_setBit, ← bitSize]
        omega
      rw [writeBits, ih _ _ others, bit_setBit _ _ _ _ first]
      rcases Nat.lt_trichotomy index start with below | rfl | above
      · rw [if_neg (by omega), if_neg (by omega), if_neg (by omega)]
      · rw [if_neg (by omega), if_pos rfl, if_pos (Nat.le_refl _), Nat.sub_self]
        rfl
      · rw [if_pos (by omega), if_neg (by omega), if_pos (by omega),
          show index - start = index - (start + 1) + 1 by omega, List.getElem?_cons_succ]

theorem ext_bit {a b : Memory} (sizes : a.size = b.size)
    (bits : ∀ index < a.bitSize, a.bit index = b.bit index) : a = b := by
  have bytes : a.bytes = b.bytes := by
    apply Array.ext sizes
    intro address left right
    apply UInt8.eq_of_toBitVec_eq
    apply BitVec.eq_of_getLsbD_eq
    intro place bound
    have same := bits (8 * address + (7 - place)) (by rw [bitSize_eq]; omega)
    unfold bit at same
    rw [show (8 * address + (7 - place)) / 8 = address by omega,
      show 7 - (8 * address + (7 - place)) % 8 = place by omega] at same
    simpa [Array.getD_eq_getD_getElem?, left, right] using same
  cases a
  cases b
  exact congrArg Memory.mk bytes

theorem writeBits_append (memory : Memory) (start : Nat) (front back : List Bool) :
    memory.writeBits start (front ++ back) =
      (memory.writeBits start front).writeBits (start + front.length) back := by
  induction front generalizing memory start with
  | nil => rfl
  | cons bit front ih =>
      rw [List.cons_append, writeBits, ih, writeBits, List.length_cons, Nat.add_assoc, Nat.add_comm 1]

/-- The eight bits of a byte at its place are the byte. -/
theorem writeBits_byte (memory : Memory) (address : Nat) (byte : UInt8) (inside : address < memory.size) :
    memory.writeBits (8 * address) (Bits.ofNat 8 byte.toNat) = memory.putByte address byte := by
  apply ext_bit
  · simp
  intro index _
  rw [bit_writeBits _ _ _ _ (by simp only [Bits.length_ofNat, bitSize]; omega),
    bit_putByte _ _ _ _ inside]
  by_cases same : index / 8 = address
  · have place : index - 8 * address < 8 := by omega
    have offset : 8 - 1 - (index - 8 * address) = 7 - index % 8 := by omega
    rw [if_pos same, if_pos (by omega)]
    simp [Bits.ofNat, place, offset]
  · rw [if_neg same]
    split
    · rw [List.getElem?_eq_none (by rw [Bits.length_ofNat]; omega)]
      rfl
    · rfl

theorem writeBits_word (memory : Memory) (address word : Nat) (inside : address + 2 ≤ memory.size)
    (bound : word < 2 ^ 16) :
    memory.writeBits (8 * address) (Bits.ofNat 16 word) = memory.putBytes address (wordBytes word) := by
  have high : (UInt8.ofNat (word / 256)).toNat = word / 2 ^ 8 := by
    rw [UInt8.toNat_ofNat']
    omega
  have low : Bits.ofNat 8 word = Bits.ofNat 8 (UInt8.ofNat word).toNat := by
    rw [UInt8.toNat_ofNat']
    simp only [Bits.ofNat]
    apply List.map_congr_left
    intro offset member
    have := List.mem_range.1 member
    rw [Nat.testBit_mod_two_pow]
    simp
    omega
  rw [Bits.ofNat_add 8 8, writeBits_append, Bits.length_ofNat, low, ← high,
    writeBits_byte _ _ _ (by omega), show 8 * address + 8 = 8 * (address + 1) by omega,
    writeBits_byte _ _ _ (by rw [size_putByte]; omega)]
  rfl

theorem checkRange_eq_ok {memory : Memory} {start length : Nat} (inside : start + length ≤ memory.bitSize) :
    memory.checkRange start length = .ok () :=
  if_pos inside

theorem checkRange_eq_error {memory : Memory} {start length : Nat} (outside : memory.bitSize < start + length) :
    memory.checkRange start length = .error (.outOfBounds start length memory.bitSize) :=
  if_neg (Nat.not_le.2 outside)

theorem bitAddress_eq_ok {memory : Memory} {address length : Nat}
    (addressable : 8 * address < bitAddressBound) : memory.bitAddress address length = .ok (8 * address) :=
  if_pos addressable

theorem bitAddress_eq_error {memory : Memory} {address length : Nat} (beyond : bitAddressBound ≤ 8 * address) :
    memory.bitAddress address length = .error (.outOfBounds (bitAddressBound - 1) length memory.bitSize) :=
  if_neg (Nat.not_lt.2 beyond)

/-- The bit address that is reported for a byte outside memory. -/
def reportedStart (address : Nat) : Nat := min (8 * address) (bitAddressBound - 1)

theorem reportedStart_of_lt {address : Nat} (addressable : 8 * address < bitAddressBound) :
    reportedStart address = 8 * address := by
  rw [reportedStart]
  omega

theorem reportedStart_of_le {address : Nat} (beyond : bitAddressBound ≤ 8 * address) :
    reportedStart address = bitAddressBound - 1 := by
  rw [reportedStart]
  omega

theorem addressable_of_lt {address : Nat} (near : address < 2 ^ 61) : 8 * address < bitAddressBound := by
  rw [bitAddressBound, UInt64.size]
  omega

/-- Every address that fits a word has a bit address. -/
theorem addressable_word (word : UInt16) : 8 * word.toNat < bitAddressBound :=
  addressable_of_lt (Nat.lt_trans word.toNat_lt (by decide))

theorem readBits_add (memory : Memory) (start front back : Nat) :
    memory.readBits start (front + back) =
      memory.readBits start front ++ memory.readBits (start + front) back := by
  simp [readBits, List.range_add, Function.comp_def, Nat.add_assoc]

theorem readBits_byte {memory : Memory} {address : Nat} {byte : UInt8}
    (found : memory.bytes[address]? = some byte) :
    memory.readBits (8 * address) 8 = Bits.ofNat 8 byte.toNat := by
  simp only [readBits, Bits.ofNat]
  apply List.map_congr_left
  intro offset member
  have bound := List.mem_range.1 member
  rw [bit, Array.getD_eq_getD_getElem?, show (8 * address + offset) / 8 = address by omega, found,
    show 7 - (8 * address + offset) % 8 = 8 - 1 - offset by omega]
  rfl

theorem toNat_readBits_byte {memory : Memory} {address : Nat} {byte : UInt8}
    (found : memory.bytes[address]? = some byte) :
    Bits.toNat (memory.readBits (8 * address) 8) = byte.toNat := by
  have bound : byte.toNat < 256 := byte.toNat_lt
  rw [readBits_byte found, Bits.toNat_ofNat, Nat.one_shiftLeft]
  omega

theorem getNumber_eq_ok {memory : Memory} {capacity start length : Nat} (narrow : length ≤ capacity)
    (inside : start + length ≤ memory.bitSize) :
    memory.getNumber capacity start length = .ok (Bits.toNat (memory.readBits start length)) := by
  simp [getNumber, getBits, checkRange_eq_ok inside, Nat.not_lt.2 narrow, bind, Except.bind, pure, Except.pure]

theorem getNumber_eq_error {memory : Memory} {capacity start length : Nat} (narrow : length ≤ capacity)
    (outside : memory.bitSize < start + length) :
    memory.getNumber capacity start length = .error (.outOfBounds start length memory.bitSize) := by
  simp [getNumber, getBits, checkRange_eq_error outside, Nat.not_lt.2 narrow, bind, Except.bind]

theorem setNumber_eq_ok {memory : Memory} {start length value : Nat} (narrow : value < 1 <<< length)
    (inside : start + length ≤ memory.bitSize) :
    memory.setNumber start length value = .ok (memory.writeBits start (Bits.ofNat length value)) := by
  simp [setNumber, checkRange_eq_ok inside, Nat.not_lt.2 ((Bits.width_le_iff value length).2 narrow), bind,
    Except.bind, pure, Except.pure]

theorem setNumber_eq_error {memory : Memory} {start length value : Nat} (narrow : value < 1 <<< length)
    (outside : memory.bitSize < start + length) :
    memory.setNumber start length value = .error (.outOfBounds start length memory.bitSize) := by
  simp [setNumber, checkRange_eq_error outside, Nat.not_lt.2 ((Bits.width_le_iff value length).2 narrow), bind,
    Except.bind]

/-- A byte with an address reads as the entry of the byte array. -/
theorem readByte_eq_ok {memory : Memory} {address : Nat} {byte : UInt8}
    (addressable : 8 * address < bitAddressBound) (found : memory.bytes[address]? = some byte) :
    memory.readByte address = .ok byte := by
  have inside : 8 * address + 8 ≤ memory.bitSize := by
    have := (Array.getElem?_eq_some_iff.1 found).1
    rw [bitSize_eq]
    omega
  simp [readByte, bitAddress_eq_ok addressable, getNumber_eq_ok (Nat.le_refl 8) inside,
    toNat_readBits_byte found, bind, Except.bind, pure, Except.pure]

theorem readByte_eq_error {memory : Memory} {address : Nat} (addressable : 8 * address < bitAddressBound)
    (outside : memory.size ≤ address) :
    memory.readByte address = .error (.outOfBounds (8 * address) 8 memory.bitSize) := by
  have beyond : memory.bitSize < 8 * address + 8 := by
    rw [bitSize]
    omega
  simp [readByte, bitAddress_eq_ok addressable, getNumber_eq_error (Nat.le_refl 8) beyond, bind, Except.bind]

/-- A word is its two bytes, the first of them the more significant one. -/
theorem readWord_eq_ok {memory : Memory} {address : Nat} {high low : UInt8}
    (addressable : 8 * address < bitAddressBound) (first : memory.bytes[address]? = some high)
    (second : memory.bytes[address + 1]? = some low) :
    memory.readWord address = .ok (UInt16.ofNat (256 * high.toNat + low.toNat)) := by
  have inside : 8 * address + 16 ≤ memory.bitSize := by
    have := (Array.getElem?_eq_some_iff.1 second).1
    rw [bitSize_eq]
    omega
  have value : Bits.toNat (memory.readBits (8 * address) 16) = 256 * high.toNat + low.toNat := by
    rw [readBits_add _ _ 8 8, show 8 * address + 8 = 8 * (address + 1) by omega, Bits.toNat_append,
      toNat_readBits_byte first, toNat_readBits_byte second, readBits_byte second, Bits.length_ofNat]
    omega
  simp [readWord, bitAddress_eq_ok addressable, getNumber_eq_ok (Nat.le_refl 16) inside, value, bind,
    Except.bind, pure, Except.pure]

theorem readWord_eq_error {memory : Memory} {address : Nat} (addressable : 8 * address < bitAddressBound)
    (outside : memory.size < address + 2) :
    memory.readWord address = .error (.outOfBounds (8 * address) 16 memory.bitSize) := by
  have beyond : memory.bitSize < 8 * address + 16 := by
    rw [bitSize]
    omega
  simp [readWord, bitAddress_eq_ok addressable, getNumber_eq_error (Nat.le_refl 16) beyond, bind, Except.bind]

theorem writeByte_eq_ok {memory : Memory} {address : Nat} (addressable : 8 * address < bitAddressBound)
    (inside : address < memory.size) (byte : UInt8) :
    memory.writeByte address byte = .ok (memory.putByte address byte) := by
  have room : 8 * address + 8 ≤ memory.bitSize := by
    rw [bitSize]
    omega
  rw [← writeBits_byte memory address byte inside, ← setNumber_eq_ok byte.toNat_lt room]
  simp [writeByte, bitAddress_eq_ok addressable, bind, Except.bind]

theorem writeByte_eq_error {memory : Memory} {address : Nat} (addressable : 8 * address < bitAddressBound)
    (outside : memory.size ≤ address) (byte : UInt8) :
    memory.writeByte address byte = .error (.outOfBounds (8 * address) 8 memory.bitSize) := by
  have beyond : memory.bitSize < 8 * address + 8 := by
    rw [bitSize]
    omega
  rw [← setNumber_eq_error byte.toNat_lt beyond]
  simp [writeByte, bitAddress_eq_ok addressable, bind, Except.bind]

theorem writeWord_eq_ok {memory : Memory} {address : Nat} (addressable : 8 * address < bitAddressBound)
    (inside : address + 2 ≤ memory.size) (word : UInt16) :
    memory.writeWord address word = .ok (memory.putBytes address (wordBytes word.toNat)) := by
  have room : 8 * address + 16 ≤ memory.bitSize := by
    rw [bitSize]
    omega
  rw [← writeBits_word memory address word.toNat inside word.toNat_lt, ← setNumber_eq_ok word.toNat_lt room]
  simp [writeWord, bitAddress_eq_ok addressable, bind, Except.bind]

theorem writeWord_eq_error {memory : Memory} {address : Nat} (addressable : 8 * address < bitAddressBound)
    (outside : memory.size < address + 2) (word : UInt16) :
    memory.writeWord address word = .error (.outOfBounds (8 * address) 16 memory.bitSize) := by
  have beyond : memory.bitSize < 8 * address + 16 := by
    rw [bitSize]
    omega
  rw [← setNumber_eq_error word.toNat_lt beyond]
  simp [writeWord, bitAddress_eq_ok addressable, bind, Except.bind]

/-! The same for addresses without bit addresses, which are refused like all others outside memory. -/

theorem readByte_outside {memory : Memory} {address : Nat} (outside : memory.size ≤ address) :
    memory.readByte address = .error (.outOfBounds (reportedStart address) 8 memory.bitSize) := by
  rcases Nat.lt_or_ge (8 * address) bitAddressBound with addressable | beyond
  · rw [readByte_eq_error addressable outside, reportedStart_of_lt addressable]
  · simp [readByte, bitAddress_eq_error beyond, reportedStart_of_le beyond, bind, Except.bind]

theorem writeByte_outside {memory : Memory} {address : Nat} (outside : memory.size ≤ address) (byte : UInt8) :
    memory.writeByte address byte = .error (.outOfBounds (reportedStart address) 8 memory.bitSize) := by
  rcases Nat.lt_or_ge (8 * address) bitAddressBound with addressable | beyond
  · rw [writeByte_eq_error addressable outside, reportedStart_of_lt addressable]
  · simp [writeByte, bitAddress_eq_error beyond, reportedStart_of_le beyond, bind, Except.bind]

theorem writeWord_outside {memory : Memory} {address : Nat} (outside : memory.size < address + 2) (word : UInt16) :
    memory.writeWord address word = .error (.outOfBounds (reportedStart address) 16 memory.bitSize) := by
  rcases Nat.lt_or_ge (8 * address) bitAddressBound with addressable | beyond
  · rw [writeWord_eq_error addressable outside, reportedStart_of_lt addressable]
  · simp [writeWord, bitAddress_eq_error beyond, reportedStart_of_le beyond, bind, Except.bind]

theorem readWord_outside {memory : Memory} {address : Nat} (outside : memory.size < address + 2) :
    memory.readWord address = .error (.outOfBounds (reportedStart address) 16 memory.bitSize) := by
  rcases Nat.lt_or_ge (8 * address) bitAddressBound with addressable | beyond
  · rw [readWord_eq_error addressable outside, reportedStart_of_lt addressable]
  · simp [readWord, bitAddress_eq_error beyond, reportedStart_of_le beyond, bind, Except.bind]

/-- A byte is read if it has a bit address and lies in memory. -/
theorem readByte_eq_ok_iff {memory : Memory} {address : Nat} {byte : UInt8} :
    memory.readByte address = .ok byte ↔ 8 * address < bitAddressBound ∧ memory.bytes[address]? = some byte := by
  constructor
  · intro success
    have addressable : 8 * address < bitAddressBound := by
      refine Decidable.byContradiction fun beyond => ?_
      simp [readByte, bitAddress_eq_error (Nat.le_of_not_lt beyond), bind, Except.bind] at success
    rcases Nat.lt_or_ge address memory.size with inside | outside
    · obtain ⟨other, found⟩ : ∃ other, memory.bytes[address]? = some other :=
        ⟨_, Array.getElem?_eq_getElem inside⟩
      rw [readByte_eq_ok addressable found, Except.ok.injEq] at success
      exact ⟨addressable, success ▸ found⟩
    · rw [readByte_outside outside] at success
      cases success
  · rintro ⟨addressable, found⟩
    exact readByte_eq_ok addressable found

theorem readWord_eq_ok_iff {memory : Memory} {address : Nat} {word : UInt16} :
    memory.readWord address = .ok word ↔ 8 * address < bitAddressBound ∧ ∃ high low,
      memory.bytes[address]? = some high ∧ memory.bytes[address + 1]? = some low ∧
        word = UInt16.ofNat (256 * high.toNat + low.toNat) := by
  constructor
  · intro success
    have addressable : 8 * address < bitAddressBound := by
      refine Decidable.byContradiction fun beyond => ?_
      simp [readWord, bitAddress_eq_error (Nat.le_of_not_lt beyond), bind, Except.bind] at success
    rcases Nat.lt_or_ge memory.size (address + 2) with outside | inside
    · rw [readWord_outside outside] at success
      cases success
    · obtain ⟨high, first⟩ : ∃ high, memory.bytes[address]? = some high :=
        ⟨_, Array.getElem?_eq_getElem (Nat.lt_of_succ_lt inside)⟩
      obtain ⟨low, second⟩ : ∃ low, memory.bytes[address + 1]? = some low :=
        ⟨_, Array.getElem?_eq_getElem inside⟩
      rw [readWord_eq_ok addressable first second, Except.ok.injEq] at success
      exact ⟨addressable, high, low, first, second, success.symm⟩
  · rintro ⟨addressable, high, low, first, second, rfl⟩
    exact readWord_eq_ok addressable first second

theorem writeWord_eq_ok_iff {memory written : Memory} {address : Nat} {word : UInt16} :
    memory.writeWord address word = .ok written ↔ 8 * address < bitAddressBound ∧ address + 2 ≤ memory.size ∧
      written = memory.putBytes address (wordBytes word.toNat) := by
  constructor
  · intro success
    have addressable : 8 * address < bitAddressBound := by
      refine Decidable.byContradiction fun beyond => ?_
      simp [writeWord, bitAddress_eq_error (Nat.le_of_not_lt beyond), bind, Except.bind] at success
    rcases Nat.lt_or_ge memory.size (address + 2) with outside | inside
    · rw [writeWord_outside outside] at success
      cases success
    · rw [writeWord_eq_ok addressable inside, Except.ok.injEq] at success
      exact ⟨addressable, inside, success.symm⟩
  · rintro ⟨addressable, inside, rfl⟩
    exact writeWord_eq_ok addressable inside word

/-- Two memories of one size that differ at most in the bytes from `start` up to `finish`. -/
structure AgreeOutside (start finish : Nat) (memory other : Memory) : Prop where
  size : other.size = memory.size
  bytes : ∀ address, address < start ∨ finish ≤ address → other.bytes[address]? = memory.bytes[address]?

namespace AgreeOutside

theorem refl (start finish : Nat) (memory : Memory) : AgreeOutside start finish memory memory :=
  ⟨rfl, fun _ _ => rfl⟩

theorem trans {start finish : Nat} {memory mid other : Memory} (first : AgreeOutside start finish memory mid)
    (second : AgreeOutside start finish mid other) : AgreeOutside start finish memory other :=
  ⟨second.size.trans first.size, fun address outside =>
    (second.bytes address outside).trans (first.bytes address outside)⟩

/-- Bytes put inside a range leave all others alone. -/
theorem putBytes {start finish address : Nat} {memory : Memory} {bytes : List UInt8} (low : start ≤ address)
    (high : address + bytes.length ≤ finish) (inside : address + bytes.length ≤ memory.size) :
    AgreeOutside start finish memory (memory.putBytes address bytes) := by
  refine ⟨size_putBytes _ _ _, ?_⟩
  intro other outside
  rw [bytes_putBytes _ _ _ _ inside]
  split
  · rw [List.getElem?_eq_none (by omega), Option.none_or]
  · rfl

theorem putByte {start finish address : Nat} {memory : Memory} (low : start ≤ address) (high : address < finish)
    (inside : address < memory.size) (byte : UInt8) :
    AgreeOutside start finish memory (memory.putByte address byte) :=
  @putBytes start finish address memory [byte] low high inside

end AgreeOutside

end Memory

end WordMachine
