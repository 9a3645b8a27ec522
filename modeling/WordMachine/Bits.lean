/-! # Bits of a number

A list of bits read as a number, most significant bit first, and the list of the lowest bits of a number.
`toNat_ofNat` says that a number survives the way through a list that is long enough for it.
-/

namespace WordMachine.Bits

/-- The number that a list of bits spells, most significant bit first. -/
def toNat (bits : List Bool) : Nat :=
  bits.foldl (fun number bit => 2 * number + bit.toNat) 0

/-- The lowest `length` bits of a number, most significant first; past its own bits come zeros. -/
def ofNat (length number : Nat) : List Bool :=
  (List.range length).map fun offset => number.testBit (length - 1 - offset)

/-- How many bits a number takes up without leading zeros. -/
def width (number : Nat) : Nat :=
  if number = 0 then 0 else number.log2 + 1

@[simp] theorem toNat_nil : toNat [] = 0 := rfl

theorem toNat_append_singleton (bits : List Bool) (bit : Bool) :
    toNat (bits ++ [bit]) = 2 * toNat bits + bit.toNat := by
  simp [toNat]

@[simp] theorem length_ofNat (length number : Nat) : (ofNat length number).length = length := by
  simp [ofNat]

theorem ofNat_succ (length number : Nat) :
    ofNat (length + 1) number = ofNat length (number / 2) ++ [number.testBit 0] := by
  simp only [ofNat, List.range_succ, List.map_append, List.map_cons, List.map_nil]
  congr 1
  · apply List.map_congr_left
    intro offset member
    have : length + 1 - 1 - offset = (length - 1 - offset) + 1 := by
      have := List.mem_range.1 member
      omega
    rw [this, Nat.testBit_succ]
  · simp

/-- A list of `length` bits keeps the lowest `length` bits of a number. -/
theorem toNat_ofNat (length number : Nat) : toNat (ofNat length number) = number % (1 <<< length) := by
  rw [Nat.one_shiftLeft]
  -- The number is halved and its last bit split off on both sides.
  induction length generalizing number with
  | zero => simp [ofNat, Nat.mod_one]
  | succ length ih =>
      rw [ofNat_succ, toNat_append_singleton, ih, Nat.pow_succ, Nat.mul_comm (2 ^ length) 2,
        Nat.mod_mul, Nat.testBit_zero]
      have : (decide (number % 2 = 1)).toNat = number % 2 := by
        rcases Nat.mod_two_eq_zero_or_one number with h | h <;> simp [h]
      omega

theorem width_le_iff (number length : Nat) : width number ≤ length ↔ number < 1 <<< length := by
  rw [Nat.one_shiftLeft]
  unfold width
  split
  · next zero => exact iff_of_true (Nat.zero_le _) (zero ▸ Nat.two_pow_pos _)
  · next nonzero => rw [← Nat.log2_lt nonzero]; omega

end WordMachine.Bits
