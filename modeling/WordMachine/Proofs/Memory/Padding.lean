import WordMachine.Proofs.Except
import WordMachine.Proofs.Memory.Bytes

/-! # Memory with zeros behind it

Memory reads as zeros past its end, so zeros behind it change no bit.  A write that succeeds is the same with zeros
behind the memory.
-/

namespace WordMachine.Memory

variable {memory written : Memory}

/-- Memory with some zero bytes behind it. -/
def padded (memory : Memory) (count : Nat) : Memory := ⟨memory.bytes ++ Array.replicate count 0⟩

@[simp] theorem size_padded (memory : Memory) (count : Nat) : (memory.padded count).size = memory.size + count := by
  simp [padded, size]

theorem bitSize_padded (memory : Memory) (count : Nat) :
    (memory.padded count).bitSize = memory.bitSize + 8 * count := by
  rw [bitSize, size_padded, Nat.mul_add, bitSize]

theorem padded_zeroed (size count : Nat) : (zeroed size).padded count = zeroed (size + count) := by
  simp [padded, zeroed]

theorem bytes_padded {address : Nat} (inside : address < memory.size) (count : Nat) :
    (memory.padded count).bytes[address]? = memory.bytes[address]? :=
  Array.getElem?_append_left inside

@[simp] theorem bit_padded (memory : Memory) (count index : Nat) :
    (memory.padded count).bit index = memory.bit index := by
  rw [bit, bit, Array.getD_eq_getD_getElem?, Array.getD_eq_getD_getElem?]
  rcases Nat.lt_or_ge (index / 8) memory.size with inside | behind
  · rw [bytes_padded inside]
  · have bound : memory.bytes.size ≤ index / 8 := behind
    rw [padded, Array.getElem?_append_right bound, Array.getElem?_replicate, Array.getElem?_eq_none bound]
    split <;> rfl

theorem writeBits_padded {start : Nat} {bits : List Bool} (inside : start + bits.length ≤ memory.bitSize)
    (count : Nat) : (memory.padded count).writeBits start bits = (memory.writeBits start bits).padded count := by
  have room : start + bits.length ≤ (memory.padded count).bitSize := by
    rw [bitSize_padded]
    omega
  apply ext_bit
  · simp
  · intro index _
    rw [bit_padded, bit_writeBits _ _ _ _ inside, bit_writeBits _ _ _ _ room, bit_padded]

theorem setNumber_eq_ok_iff {start length value : Nat} :
    memory.setNumber start length value = .ok written ↔ value < 1 <<< length ∧ start + length ≤ memory.bitSize ∧
      written = memory.writeBits start (Bits.ofNat length value) := by
  constructor
  · intro success
    rcases Nat.lt_or_ge value (1 <<< length) with narrow | wide
    · rcases Nat.lt_or_ge memory.bitSize (start + length) with outside | inside
      · rw [setNumber_eq_error narrow outside] at success
        cases success
      · rw [setNumber_eq_ok narrow inside, Except.ok.injEq] at success
        exact ⟨narrow, inside, success.symm⟩
    · have long : length < Bits.width value := by
        refine Nat.lt_of_not_le fun short => ?_
        exact Nat.not_lt.2 wide ((Bits.width_le_iff value length).1 short)
      simp [setNumber, long, bind, Except.bind] at success
  · rintro ⟨narrow, inside, rfl⟩
    exact setNumber_eq_ok narrow inside

theorem size_setNumber {start length value : Nat} (success : memory.setNumber start length value = .ok written) :
    written.size = memory.size := by
  obtain ⟨-, -, rfl⟩ := setNumber_eq_ok_iff.1 success
  rw [size_writeBits]

theorem setNumber_padded {start length value : Nat} (success : memory.setNumber start length value = .ok written)
    (count : Nat) : (memory.padded count).setNumber start length value = .ok (written.padded count) := by
  obtain ⟨narrow, inside, rfl⟩ := setNumber_eq_ok_iff.1 success
  refine setNumber_eq_ok_iff.2 ⟨narrow, ?_, ?_⟩
  · rw [bitSize_padded]
    omega
  · exact (writeBits_padded (by rwa [Bits.length_ofNat]) count).symm

section Access

variable {address length value : Nat}
  (success : (memory.bitAddress address length >>= (memory.setNumber · length value)) = .ok written)

include success

/-- A byte and a word are written as numbers at bit addresses that do not depend on the memory. -/
theorem access_padded (count : Nat) :
    ((memory.padded count).bitAddress address length >>= ((memory.padded count).setNumber · length value)) =
      .ok (written.padded count) := by
  obtain ⟨start, place, stored⟩ := exists_of_bind_eq_ok success
  unfold bitAddress at place ⊢
  split at place
  next addressable =>
    cases place
    rw [if_pos addressable]
    exact setNumber_padded stored count
  next => cases place

theorem size_access : written.size = memory.size := by
  obtain ⟨start, -, stored⟩ := exists_of_bind_eq_ok success
  exact size_setNumber stored

end Access

end WordMachine.Memory
