import WordMachine.Proofs.Text.Digits

/-! # Reading positional notation

A digit string stands for the sum of its digits times powers of the base, `positional`.  It is read from the left
into 32 bits, and each digit multiplies and adds under a check.  What is read of the front never exceeds the whole,
so the checks refuse exactly the numbers from 2³² on, however many digits there are and however many zeros are in
front: `parses_positional_notation`.
-/

namespace WordMachine

theorem Numeral.value_cons (base first : Nat) (rest : List Nat) :
    value base (first :: rest) = first * base ^ rest.length + value base rest := by
  -- Numbers grow at their end, so the induction is on the reversed digits.
  rw [← List.reverse_reverse rest]
  induction rest.reverse with
  | nil => simp [value]
  | cons last front ih =>
      rw [List.reverse_cons, ← List.cons_append, value_append_singleton, ih, value_append_singleton,
        List.length_append, List.length_singleton, Nat.pow_succ]
      ring

namespace Radix

variable (radix : Radix)

/-- The number that digits spell: each counts its place in the alphabet times a power of the base for each digit
    behind it. -/
def positional : List Char → Nat
  | [] => 0
  | c :: rest => radix.alphabet.idxOf c.toUpper * radix.base ^ rest.length + positional rest

/-- A text is some digits, in either case and nothing else, that spell a number of at most 32 bits. -/
structure Spells (text : List Char) (number : Nat) : Prop where
  nonempty : text ≠ []
  digits : ∀ c ∈ text, c.toUpper ∈ radix.alphabet
  value : radix.positional text = number
  bound : number < 2 ^ 32

theorem length_alphabet : radix.alphabet.length = radix.base := by
  cases radix <;> rfl

variable {radix}

theorem idxOf_digit {value : Nat} (small : value < radix.base) :
    radix.alphabet.idxOf (Numeral.digit value) = value := by
  revert value
  cases radix <;> decide

theorem digitValue?_of_isDigit {c : Char} (digit : radix.isDigit c) :
    radix.digitValue? c = some (radix.alphabet.idxOf c.toUpper) := by
  obtain ⟨value, found⟩ := Option.isSome_iff_exists.1 digit
  obtain ⟨small, same⟩ := digitValue?_eq_some_iff.1 found
  rw [found, same, idxOf_digit small]

theorem idxOf_lt {c : Char} (digit : radix.isDigit c) : radix.alphabet.idxOf c.toUpper < radix.base := by
  rw [← length_alphabet, List.idxOf_lt_length_iff]
  exact isDigit_iff.1 digit

section Digits

variable {digits : List Char} (only : ∀ c ∈ digits, radix.isDigit c)

include only

theorem length_filterMap_digits : (digits.filterMap radix.digitValue?).length = digits.length := by
  rw [List.filterMap_length_eq_length]
  exact only

/-- Digits are read as the number that they spell. -/
theorem valueOf_eq_positional : radix.valueOf digits = radix.positional digits := by
  induction digits with
  | nil => rfl
  | cons c rest ih =>
      obtain ⟨first, others⟩ := List.forall_mem_cons.1 only
      have behind := ih others
      rw [valueOf] at behind ⊢
      rw [List.filterMap_cons_some (digitValue?_of_isDigit first), Numeral.value_cons, behind,
        length_filterMap_digits others, positional]

theorem positional_lt : radix.positional digits < radix.base ^ digits.length := by
  induction digits with
  | nil => exact Nat.one_pos
  | cons c rest ih =>
      obtain ⟨first, others⟩ := List.forall_mem_cons.1 only
      calc radix.positional (c :: rest)
          < radix.alphabet.idxOf c.toUpper * radix.base ^ rest.length + radix.base ^ rest.length :=
            Nat.add_lt_add_left (ih others) _
        _ = (radix.alphabet.idxOf c.toUpper + 1) * radix.base ^ rest.length := by rw [Nat.succ_mul]
        _ ≤ radix.base * radix.base ^ rest.length := Nat.mul_le_mul_right _ (Nat.succ_le_of_lt (idxOf_lt first))
        _ = radix.base ^ (c :: rest).length := by rw [List.length_cons, Nat.pow_succ, Nat.mul_comm]

/-- Nothing but a sign stands in front of the digits of a numeral. -/
theorem unsigned_of_digits : Numeral.unsigned digits = digits := by
  unfold Numeral.unsigned
  split
  next rest =>
    have sign : ¬ radix.isDigit '+' := by cases radix <;> decide
    exact absurd (only '+' List.mem_cons_self) sign
  next => rfl

end Digits

section Accumulation

open Numeral

theorem toNat_ofNat_of_le_base {value : Nat} (small : value ≤ radix.base) : (UInt32.ofNat value).toNat = value :=
  UInt32.toNat_ofNat_of_lt' (Nat.lt_of_le_of_lt (Nat.le_trans small radix.base_bounds.2) (by decide))

/-- One more digit is read if it is one and the longer number still has 32 bits. -/
theorem extend?_eq_some_iff {number next : UInt32} {c : Char} :
    extend? radix.base number c = some next ↔
      radix.isDigit c ∧ number.toNat * radix.base + radix.alphabet.idxOf c.toUpper = next.toNat := by
  have step : extend? radix.base number c = (radix.digitValue? c).bind fun digit =>
      (product? number (UInt32.ofNat radix.base)).bind fun shifted => sum? shifted (UInt32.ofNat digit) := rfl
  have base : (UInt32.ofNat radix.base).toNat = radix.base := toNat_ofNat_of_le_base (Nat.le_refl _)
  rw [step]
  by_cases digit : radix.isDigit c
  · have value : (UInt32.ofNat (radix.alphabet.idxOf c.toUpper)).toNat = radix.alphabet.idxOf c.toUpper :=
      toNat_ofNat_of_le_base (Nat.le_of_lt (idxOf_lt digit))
    simp only [digitValue?_of_isDigit digit, Option.bind_some, Option.bind_eq_some_iff, product?_eq_some_iff,
      sum?_eq_some_iff, base, value, digit, true_and]
    constructor
    · rintro ⟨shifted, product, sum⟩
      rw [product, sum]
    · intro total
      have fits : number.toNat * radix.base < UInt32.size :=
        Nat.lt_of_le_of_lt (Nat.le_add_right _ _) (total ▸ next.toNat_lt)
      have shifted := UInt32.toNat_ofNat_of_lt' fits
      exact ⟨UInt32.ofNat _, shifted.symm, by rw [shifted, total]⟩
  · have foreign : radix.digitValue? c = none := Option.not_isSome_iff_eq_none.1 digit
    simp [foreign, digit]

/-- The first digit may be taken to the number in front, or counted with the digits behind it. -/
theorem append_positional (number : Nat) (c : Char) (rest : List Char) :
    (number * radix.base + radix.alphabet.idxOf c.toUpper) * radix.base ^ rest.length + radix.positional rest =
      number * radix.base ^ (c :: rest).length + radix.positional (c :: rest) := by
  rw [positional, List.length_cons, Nat.pow_succ]
  ring

/-- Reading digits behind a number succeeds if and only if they are digits and the number that all of them make up
    has 32 bits. -/
theorem foldlM_extend?_eq_some_iff {digits : List Char} {start number : UInt32} :
    digits.foldlM (extend? radix.base) start = some number ↔
      (∀ c ∈ digits, radix.isDigit c) ∧
        start.toNat * radix.base ^ digits.length + radix.positional digits = number.toNat := by
  induction digits generalizing start with
  | nil => simp [positional, UInt32.toNat_inj]
  | cons c rest ih =>
      rw [List.foldlM_cons, Option.bind_eq_bind, Option.bind_eq_some_iff, List.forall_mem_cons,
        ← append_positional]
      constructor
      · rintro ⟨next, taken, others⟩
        obtain ⟨digit, value⟩ := extend?_eq_some_iff.1 taken
        obtain ⟨only, total⟩ := ih.1 others
        exact ⟨⟨digit, only⟩, by rw [value, total]⟩
      · rintro ⟨⟨digit, only⟩, total⟩
        -- The digits behind can only make the number larger, so it has not overflowed before.
        have positive : 0 < radix.base ^ rest.length := Nat.pow_pos (by have := radix.base_bounds; omega)
        have fits : start.toNat * radix.base + radix.alphabet.idxOf c.toUpper < UInt32.size :=
          calc start.toNat * radix.base + radix.alphabet.idxOf c.toUpper
              ≤ (start.toNat * radix.base + radix.alphabet.idxOf c.toUpper) * radix.base ^ rest.length :=
                Nat.le_mul_of_pos_right _ positive
            _ ≤ number.toNat := total ▸ Nat.le_add_right _ _
            _ < UInt32.size := number.toNat_lt
        have next := UInt32.toNat_ofNat_of_lt' fits
        exact ⟨UInt32.ofNat _, extend?_eq_some_iff.2 ⟨digit, next.symm⟩, ih.2 ⟨only, by rw [next, total]⟩⟩

/-- A numeral may have a plus sign, which changes nothing. -/
theorem read?_eq_some_iff {text : List Char} {number : UInt32} :
    read? radix.base text = some number ↔
      unsigned text ≠ [] ∧ (∀ c ∈ unsigned text, radix.isDigit c) ∧
        radix.positional (unsigned text) = number.toNat := by
  rw [read?]
  split
  next empty => simp [empty]
  next nonempty =>
    rw [foldlM_extend?_eq_some_iff, and_iff_right nonempty, UInt32.toNat_zero, Nat.zero_mul, Nat.zero_add]

end Accumulation

section Parsing

variable {text : List Char} {number : Nat}

/-- Where nothing but digits may stand, numerals without a sign are left. -/
theorem spells_iff_read? :
    radix.Spells text number ↔
      text ≠ [] ∧ (∀ c ∈ text, radix.isDigit c) ∧
        ∃ value, Numeral.read? radix.base text = some value ∧ value.toNat = number := by
  constructor
  · rintro ⟨nonempty, digits, value, bound⟩
    have only : ∀ c ∈ text, radix.isDigit c := fun c member => isDigit_iff.2 (digits c member)
    have word : (UInt32.ofNat number).toNat = number := UInt32.toNat_ofNat_of_lt' bound
    refine ⟨nonempty, only, UInt32.ofNat number, read?_eq_some_iff.2 ?_, word⟩
    rw [unsigned_of_digits only, word]
    exact ⟨nonempty, only, value⟩
  · rintro ⟨nonempty, only, value, read, rfl⟩
    obtain ⟨-, -, total⟩ := read?_eq_some_iff.1 read
    rw [unsigned_of_digits only] at total
    exact ⟨nonempty, fun c member => isDigit_iff.1 (only c member), total, value.toNat_lt⟩

theorem parseDigits_eq_ok_iff : radix.parseDigits text = .ok number ↔ radix.Spells text number := by
  rw [spells_iff_read?, parseDigits]
  split
  next flawed =>
    simp only [Bool.or_eq_true, List.isEmpty_iff, Bool.not_eq_true'] at flawed
    simp only [reduceCtorEq, false_iff]
    rintro ⟨nonempty, only, -⟩
    rw [List.all_eq_true.2 only] at flawed
    simp [nonempty] at flawed
  next sound =>
    simp only [Bool.or_eq_true, List.isEmpty_iff, Bool.not_eq_true', not_or, Bool.not_eq_false,
      List.all_eq_true] at sound
    rw [and_iff_right sound.1, and_iff_right sound.2]
    cases Numeral.read? radix.base text with
    | none => simp
    | some value => simp

theorem error_of_parseDigits {error : Error} (refused : radix.parseDigits text = .error error) :
    error = .invalidDigits (String.ofList text) radix.base := by
  rw [parseDigits] at refused
  split at refused
  · exact (Except.error.inj refused).symm
  · split at refused
    · cases refused
    · exact (Except.error.inj refused).symm

/-- Whatever is wrong with a text, it is refused with one error that shows it. -/
theorem parseDigits_eq_error_iff {error : Error} :
    radix.parseDigits text = .error error ↔
      (∀ number, ¬ radix.Spells text number) ∧ error = .invalidDigits (String.ofList text) radix.base := by
  constructor
  · intro refused
    refine ⟨fun number spells => ?_, error_of_parseDigits refused⟩
    rw [parseDigits_eq_ok_iff.2 spells] at refused
    cases refused
  · rintro ⟨foreign, rfl⟩
    cases outcome : radix.parseDigits text with
    | ok number => exact absurd (parseDigits_eq_ok_iff.1 outcome) (foreign number)
    | error error => rw [error_of_parseDigits outcome]

end Parsing

section Zeros

variable {text : List Char} (zeros : Nat)

theorem positional_replicate_zero_append :
    radix.positional (List.replicate zeros '0' ++ text) = radix.positional text := by
  have zero : radix.alphabet.idxOf '0'.toUpper = 0 := by cases radix <;> decide
  induction zeros with
  | zero => rfl
  | succ zeros ih => rw [List.replicate_succ, List.cons_append, positional, zero, Nat.zero_mul, Nat.zero_add, ih]

theorem forall_mem_replicate_zero_append_iff :
    (∀ c ∈ List.replicate zeros '0' ++ text, c.toUpper ∈ radix.alphabet) ↔ ∀ c ∈ text, c.toUpper ∈ radix.alphabet := by
  have zero : '0'.toUpper ∈ radix.alphabet := by cases radix <;> decide
  rw [List.forall_mem_append, and_iff_right]
  intro c member
  rw [List.eq_of_mem_replicate member]
  exact zero

/-- With zeros in front, digits spell the same number, and there may be any number of zeros. -/
theorem spells_replicate_zero_append_iff {number : Nat} (nonempty : text ≠ []) :
    radix.Spells (List.replicate zeros '0' ++ text) number ↔ radix.Spells text number := by
  constructor
  · rintro ⟨-, digits, value, bound⟩
    exact ⟨nonempty, (forall_mem_replicate_zero_append_iff zeros).1 digits,
      (positional_replicate_zero_append zeros).symm.trans value, bound⟩
  · rintro ⟨-, digits, value, bound⟩
    exact ⟨List.append_ne_nil_of_right_ne_nil _ nonempty, (forall_mem_replicate_zero_append_iff zeros).2 digits,
      (positional_replicate_zero_append zeros).trans value, bound⟩

end Zeros

section Bytes

variable (byte : UInt8)

/-- The digits of a byte spell the byte, in whatever case they are. -/
theorem spells_of_formatByte {group : List Char} (same : group.map Char.toUpper = radix.formatByte byte) :
    radix.Spells group byte.toNat := by
  have digits : ∀ c ∈ group, c.toUpper ∈ radix.alphabet := fun c member =>
    mem_alphabet_of_mem_formatByte byte (same ▸ List.mem_map_of_mem member)
  refine ⟨?_, digits, ?_, Nat.lt_trans byte.toNat_lt (by decide)⟩
  · rintro rfl
    have length := radix.length_formatByte byte
    rw [← same] at length
    exact absurd length.symm (Nat.ne_of_gt radix.digitsPerByte_pos)
  · rw [← valueOf_eq_positional fun c member => isDigit_iff.2 (digits c member), ← valueOf_map_toUpper, same,
      valueOf_formatByte]

theorem spells_formatByte : radix.Spells (radix.formatByte byte) byte.toNat :=
  spells_of_formatByte byte (map_toUpper_of_forall_mem fun _ member => mem_alphabet_of_mem_formatByte byte member)

end Bytes

/-- Reading a digit string.  It gives a number if and only if the text has characters, all of them digits of the
    radix in either case, and their positional value, which is the number, is below 2³²; whatever else the text is, it
    is refused with an error that holds the text and the base.  Zeros in front make no difference, and the digits of a
    byte are read as the byte, with or without more zeros. -/
theorem parses_positional_notation (radix : Radix) (text : List Char) :
    (∀ number, radix.parseDigits text = .ok number ↔ radix.Spells text number) ∧
      (∀ error, radix.parseDigits text = .error error ↔
        (∀ number, ¬ radix.Spells text number) ∧ error = .invalidDigits (String.ofList text) radix.base) ∧
      (text ≠ [] → ∀ zeros number,
        radix.parseDigits (List.replicate zeros '0' ++ text) = .ok number ↔ radix.parseDigits text = .ok number) ∧
      ∀ zeros byte, radix.parseDigits (List.replicate zeros '0' ++ radix.formatByte byte) = .ok byte.toNat := by
  refine ⟨fun number => parseDigits_eq_ok_iff, fun error => parseDigits_eq_error_iff, fun nonempty zeros number => ?_,
    fun zeros byte => ?_⟩
  · rw [parseDigits_eq_ok_iff, parseDigits_eq_ok_iff, spells_replicate_zero_append_iff zeros nonempty]
  · have spells := radix.spells_formatByte byte
    exact parseDigits_eq_ok_iff.2 ((spells_replicate_zero_append_iff zeros spells.nonempty).2 spells)

/-- The largest number of 32 bits with zeros in front, the next one, and a numeral with a sign. -/
theorem parses_positional_notation_largest :
    Radix.hexadecimal.parseDigits ("000".toList ++ "fFFFffff".toList) = .ok (2 ^ 32 - 1) ∧
      Radix.decimal.parseDigits "4294967296".toList = .error (.invalidDigits "4294967296" 10) ∧
      Radix.binary.parseDigits "+1".toList = .error (.invalidDigits "+1" 2) := by
  obtain ⟨read, -, padded, -⟩ := parses_positional_notation .hexadecimal "fFFFffff".toList
  obtain ⟨-, refused, -, -⟩ := parses_positional_notation .decimal "4294967296".toList
  obtain ⟨-, foreign, -, -⟩ := parses_positional_notation .binary "+1".toList
  have only : "fFFFffff".toList.all fun c => c.toUpper ∈ Radix.hexadecimal.alphabet := by decide
  have largest : Radix.hexadecimal.Spells "fFFFffff".toList (2 ^ 32 - 1) :=
    ⟨by decide, fun c member => of_decide_eq_true (List.all_eq_true.1 only c member), by decide, by decide⟩
  refine ⟨(padded largest.nonempty 3 _).2 ((read _).2 largest), (refused _).2 ⟨?_, rfl⟩, (foreign _).2 ⟨?_, rfl⟩⟩
  · rintro number ⟨-, -, rfl, bound⟩
    exact absurd bound (by decide)
  · rintro number ⟨-, digits, -, -⟩
    exact absurd (digits '+' (by decide)) (by decide)

end Radix

end WordMachine
