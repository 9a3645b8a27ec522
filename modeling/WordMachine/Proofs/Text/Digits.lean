import Mathlib
import WordMachine.Radix

/-! # Digits and the numbers they spell

A number is written with the digits of its radix in upper case, and digits of either case spell it.  So a byte
that is written with all its digits is read back.
-/

namespace WordMachine

theorem toNat_toUpper (c : Char) :
    c.toUpper.toNat = if 'a'.toNat ≤ c.toNat ∧ c.toNat ≤ 'z'.toNat then c.toNat - 32 else c.toNat := by
  have small : c.val.toNat < 2 ^ 32 := c.val.toNat_lt
  have code : c.val.toNat = c.toNat := rfl
  rw [Char.toUpper]
  split
  next lower =>
    obtain ⟨low, high⟩ : 97 ≤ c.toNat ∧ c.toNat ≤ 122 := lower
    rw [if_pos ⟨low, high⟩]
    change (c.val + ('A'.val - 'a'.val)).toNat = c.toNat - 32
    rw [UInt32.toNat_add, show ('A'.val - 'a'.val).toNat = 2 ^ 32 - 32 from rfl]
    omega
  next upper => exact (if_neg upper).symm

namespace Numeral

theorem digitValue?_eq (c : Char) :
    digitValue? c =
      if '0'.toNat ≤ c.toNat ∧ c.toNat ≤ '9'.toNat then some (c.toNat - '0'.toNat)
      else if 'A'.toNat ≤ c.toNat ∧ c.toNat ≤ 'F'.toNat then some (c.toNat - 'A'.toNat + 10)
      else if 'a'.toNat ≤ c.toNat ∧ c.toNat ≤ 'f'.toNat then some (c.toNat - 'a'.toNat + 10)
      else none :=
  rfl

@[simp] theorem digitValue?_toUpper (c : Char) : digitValue? c.toUpper = digitValue? c := by
  simp only [digitValue?_eq, toNat_toUpper, Char.reduceToNat]
  split
  next lower => grind
  next => rfl

/-- The upper-case digit with a value below sixteen. -/
def digit (value : Nat) : Char := value.digitChar.toUpper

theorem digitValue?_digit : ∀ value < 16, digitValue? (digit value) = some value := by
  decide

theorem toUpper_digit : ∀ value < 16, (digit value).toUpper = digit value := by
  decide

theorem toNat_digit : ∀ value < 16, (digit value).toNat = if value < 10 then 48 + value else 55 + value := by
  decide

/-- Apart from its case, a character is a digit with one value. -/
theorem digitValue?_eq_some_iff {c : Char} {value : Nat} :
    digitValue? c = some value ↔ value < 16 ∧ c.toUpper = digit value := by
  constructor
  · intro found
    have small : value < 16 := by grind [digitValue?_eq]
    refine ⟨small, ?_⟩
    apply Char.toNat_inj.1
    rw [toNat_digit value small, toNat_toUpper]
    grind [digitValue?_eq]
  · rintro ⟨small, same⟩
    rw [← digitValue?_toUpper, same, digitValue?_digit value small]

theorem digits_of_lt {base number : Nat} (small : number < base) : digits base number = [digit number] := by
  rw [digits, Nat.toDigits_of_lt_base small]
  rfl

theorem digits_of_le {base number : Nat} (nontrivial : 1 < base) (large : base ≤ number) :
    digits base number = digits base (number / base) ++ [digit (number % base)] := by
  rw [digits, Nat.toDigits_of_base_le nontrivial large, List.map_append]
  rfl

end Numeral

namespace Radix

open Numeral

/-- The digits of a radix, in upper case. -/
def alphabet (radix : Radix) : List Char := "0123456789ABCDEF".toList.take radix.base

/-- The digits among some characters, all in upper case. -/
def spelled (radix : Radix) (text : List Char) : List Char :=
  (text.map Char.toUpper).filter (· ∈ radix.alphabet)

theorem base_bounds (radix : Radix) : 1 < radix.base ∧ radix.base ≤ 16 := by
  cases radix <;> decide

variable {radix : Radix}

theorem mem_alphabet_iff {c : Char} : c ∈ radix.alphabet ↔ ∃ value < radix.base, digit value = c := by
  have listed : radix.alphabet = (List.range radix.base).map digit := by
    cases radix <;> rfl
  simp only [listed, List.mem_map, List.mem_range]

theorem digitValue?_eq_some_iff {c : Char} {value : Nat} :
    radix.digitValue? c = some value ↔ value < radix.base ∧ c.toUpper = digit value := by
  have bounds := radix.base_bounds
  rw [digitValue?, Option.filter_eq_some_iff, Numeral.digitValue?_eq_some_iff, decide_eq_true_eq]
  constructor
  · rintro ⟨⟨-, same⟩, small⟩
    exact ⟨small, same⟩
  · rintro ⟨small, same⟩
    exact ⟨⟨by omega, same⟩, small⟩

theorem isDigit_iff {c : Char} : radix.isDigit c ↔ c.toUpper ∈ radix.alphabet := by
  rw [isDigit, Option.isSome_iff_exists, mem_alphabet_iff]
  apply exists_congr
  intro value
  rw [digitValue?_eq_some_iff, eq_comm (a := c.toUpper)]

/-- What is spelled is found by dropping the other characters first. -/
theorem spelled_eq_map_filter (text : List Char) :
    radix.spelled text = (text.filter radix.isDigit).map Char.toUpper := by
  rw [spelled, List.filter_map]
  congr 1
  apply List.filter_congr
  intro c _
  exact Bool.eq_iff_iff.2 (by simp [isDigit_iff])

theorem spelled_append (front back : List Char) :
    radix.spelled (front ++ back) = radix.spelled front ++ radix.spelled back := by
  rw [spelled, List.map_append, List.filter_append]
  rfl

theorem spelled_newline (radix : Radix) : radix.spelled ['\n'] = [] := by
  cases radix <;> rfl

/-- What lines spell one after the other. -/
theorem spelled_intercalate (lines : List (List Char)) :
    radix.spelled (['\n'].intercalate lines) = lines.flatMap radix.spelled := by
  induction lines with
  | nil => rfl
  | cons line rest ih =>
      cases rest with
      | nil => rw [List.intercalate_singleton, List.flatMap_cons, List.flatMap_nil, List.append_nil]
      | cons next rest =>
          rw [List.intercalate_cons_cons, spelled_append, spelled_append, spelled_newline, List.append_nil, ih,
            ← List.flatMap_cons]

theorem toUpper_of_mem_alphabet {c : Char} (member : c ∈ radix.alphabet) : c.toUpper = c := by
  have bounds := radix.base_bounds
  obtain ⟨value, small, rfl⟩ := mem_alphabet_iff.1 member
  exact toUpper_digit value (by omega)

theorem map_toUpper_of_forall_mem {text : List Char} (digits : ∀ c ∈ text, c ∈ radix.alphabet) :
    text.map Char.toUpper = text := by
  conv_rhs => rw [← List.map_id text]
  exact List.map_congr_left fun c member => toUpper_of_mem_alphabet (digits c member)

theorem spelled_of_forall_mem {text : List Char} (digits : ∀ c ∈ text, c ∈ radix.alphabet) :
    radix.spelled text = text := by
  rw [spelled, map_toUpper_of_forall_mem digits, List.filter_eq_self]
  intro c member
  exact decide_eq_true (digits c member)

/-- The case of digits does not matter for their value. -/
theorem valueOf_map_toUpper (digits : List Char) : radix.valueOf (digits.map Char.toUpper) = radix.valueOf digits := by
  have same : radix.digitValue? ∘ Char.toUpper = radix.digitValue? := by
    funext c
    simp [digitValue?]
  rw [valueOf, List.filterMap_map, same, valueOf]

theorem valueOf_append_digit (front : List Char) {value : Nat} (small : value < radix.base) :
    radix.valueOf (front ++ [digit value]) = radix.base * radix.valueOf front + value := by
  have found : radix.digitValue? (digit value) = some value :=
    digitValue?_eq_some_iff.2 ⟨small, toUpper_digit value (by have := radix.base_bounds; omega)⟩
  rw [valueOf, List.filterMap_append, List.filterMap_cons, found, List.filterMap_nil, value_append_singleton, valueOf]

/-- A number is spelled by its digits. -/
theorem valueOf_digits (number : Nat) : radix.valueOf (digits radix.base number) = number := by
  have bounds := radix.base_bounds
  induction number using Nat.strongRecOn with
  | ind number ih =>
      rcases Nat.lt_or_ge number radix.base with small | large
      · rw [digits_of_lt small, ← List.nil_append [digit number], valueOf_append_digit [] small]
        simp [valueOf]
      · have shorter : number / radix.base < number := Nat.div_lt_self (by omega) bounds.1
        rw [digits_of_le bounds.1 large, valueOf_append_digit _ (Nat.mod_lt _ (by omega)), ih _ shorter,
          Nat.div_add_mod]

theorem mem_alphabet_of_mem_digits {number : Nat} {c : Char} (member : c ∈ digits radix.base number) :
    c ∈ radix.alphabet := by
  have bounds := radix.base_bounds
  induction number using Nat.strongRecOn with
  | ind number ih =>
      rcases Nat.lt_or_ge number radix.base with small | large
      · rw [digits_of_lt small, List.mem_singleton] at member
        exact mem_alphabet_iff.2 ⟨number, small, member.symm⟩
      · rw [digits_of_le bounds.1 large, List.mem_append, List.mem_singleton] at member
        rcases member with front | last
        · exact ih _ (Nat.div_lt_self (by omega) bounds.1) front
        · exact mem_alphabet_iff.2 ⟨number % radix.base, Nat.mod_lt _ (by omega), last.symm⟩

/-- Zeros in front change nothing. -/
theorem valueOf_replicate_zero_append (count : Nat) (digits : List Char) :
    radix.valueOf (List.replicate count '0' ++ digits) = radix.valueOf digits := by
  have found : radix.digitValue? '0' = some 0 := by
    cases radix <;> decide
  induction count with
  | zero => rfl
  | succ count ih =>
      rw [List.replicate_succ, List.cons_append, valueOf, List.filterMap_cons, found]
      exact (value_zero_cons _ _).trans ih

section Bytes

variable (byte : UInt8)

theorem formatByte_eq :
    ∃ count, radix.formatByte byte = List.replicate count '0' ++ digits radix.base byte.toNat :=
  ⟨_, rfl⟩

theorem valueOf_formatByte : radix.valueOf (radix.formatByte byte) = byte.toNat := by
  obtain ⟨count, written⟩ := radix.formatByte_eq byte
  rw [written, valueOf_replicate_zero_append, valueOf_digits]

theorem mem_alphabet_of_mem_formatByte {c : Char} (member : c ∈ radix.formatByte byte) : c ∈ radix.alphabet := by
  obtain ⟨count, written⟩ := radix.formatByte_eq byte
  rw [written, List.mem_append] at member
  rcases member with zero | digit
  · rw [List.eq_of_mem_replicate zero]
    cases radix <;> decide
  · exact mem_alphabet_of_mem_digits digit

theorem spelled_formatByte : radix.spelled (radix.formatByte byte) = radix.formatByte byte :=
  spelled_of_forall_mem fun _ member => mem_alphabet_of_mem_formatByte byte member

end Bytes

end Radix

end WordMachine
