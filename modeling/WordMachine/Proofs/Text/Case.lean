import Mathlib
import WordMachine.Parsing.Parser
import WordMachine.Text.Blank

/-! # Characters that differ in case

Only ASCII letters have a case here.  So two characters that agree once their case is taken away are the same
character or two letters, and a class of characters that holds all letters or none of them holds both or neither.
-/

namespace WordMachine.Text

variable {a b c : Char}

theorem toNat_of_isUpper (upper : c.isUpper = true) : 0x41 ≤ c.toNat ∧ c.toNat ≤ 0x5A := by
  simpa [Char.isUpper, UInt32.le_iff_toNat_le] using upper

theorem toNat_of_isAlpha (alpha : c.isAlpha = true) :
    (0x41 ≤ c.toNat ∧ c.toNat ≤ 0x5A) ∨ (0x61 ≤ c.toNat ∧ c.toNat ≤ 0x7A) := by
  simpa [Char.isAlpha, Char.isUpper, Char.isLower, UInt32.le_iff_toNat_le] using alpha

theorem toLower_of_not_isAlpha (plain : ¬ c.isAlpha = true) : c.toLower = c := by
  apply Char.toLower_eq_of_not_isUpper
  intro upper
  exact plain (by simp [Char.isAlpha, upper])

/-- Characters that agree apart from their case are the same, or both are letters. -/
theorem eq_or_isAlpha_of_toLower_eq (same : a.toLower = b.toLower) :
    a = b ∨ (a.isAlpha = true ∧ b.isAlpha = true) := by
  have letters : a.isAlpha = b.isAlpha := by
    rw [← Char.isAlpha_toLower_eq_isAlpha, same, Char.isAlpha_toLower_eq_isAlpha]
  by_cases letter : a.isAlpha = true
  · exact .inr ⟨letter, letters ▸ letter⟩
  · rw [toLower_of_not_isAlpha letter, toLower_of_not_isAlpha (letters ▸ letter)] at same
    exact .inl same

/-- Whatever all letters have in common does not tell characters apart that differ in case. -/
theorem eq_of_toLower_eq {β : Type} (kind : Char → β) {shared : β} (letters : ∀ c, c.isAlpha = true → kind c = shared)
    (same : a.toLower = b.toLower) : kind a = kind b := by
  rcases eq_or_isAlpha_of_toLower_eq same with rfl | ⟨one, two⟩
  · rfl
  · rw [letters a one, letters b two]

/-- A character that is no letter has no other case. -/
theorem eq_iff_of_toLower_eq (plain : c.isAlpha = false) (same : a.toLower = b.toLower) : a = c ↔ b = c := by
  have decided : decide (a = c) = decide (b = c) := by
    have letters : ∀ d, d.isAlpha = true → decide (d = c) = false := by
      intro d letter
      rw [decide_eq_false_iff_not]
      rintro rfl
      rw [letter] at plain
      cases plain
    exact eq_of_toLower_eq (fun d => decide (d = c)) letters same
  exact decide_eq_decide.1 decided

theorem utf8Size_eq_of_toLower_eq (same : a.toLower = b.toLower) : a.utf8Size = b.utf8Size := by
  have letters : ∀ c : Char, c.isAlpha = true → c.utf8Size = 1 := by
    intro c letter
    have range := toNat_of_isAlpha letter
    rw [Char.utf8Size_eq_one_iff, UInt32.le_iff_toNat_le]
    change c.toNat ≤ 127
    omega
  exact eq_of_toLower_eq Char.utf8Size letters same

theorem isBlank_eq_of_toLower_eq (same : a.toLower = b.toLower) : isBlank a = isBlank b := by
  have letters : ∀ c, c.isAlpha = true → isBlank c = false := by
    intro c letter
    have range := toNat_of_isAlpha letter
    simp [isBlank, blankRanges]
    omega
  exact eq_of_toLower_eq isBlank letters same

theorem isDigit_eq_false_of_isAlpha (letter : c.isAlpha = true) : c.isDigit = false := by
  rw [Bool.eq_false_iff]
  intro digit
  have low := (Char.isDigit_iff_toNat.1 digit).2
  have range := toNat_of_isAlpha letter
  change c.toNat ≤ 57 at low
  omega

theorem isDigit_eq_of_toLower_eq (same : a.toLower = b.toLower) : a.isDigit = b.isDigit :=
  eq_of_toLower_eq Char.isDigit (fun _ => isDigit_eq_false_of_isAlpha) same

end WordMachine.Text
