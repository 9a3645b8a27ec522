/-! # Blank characters

The characters of the Unicode property `White_Space`, as a table of code point ranges, and the trimming of
text by it.
-/

namespace WordMachine.Text

/-- Code point ranges of `White_Space`, ascending, both ends included. -/
def blankRanges : List (Nat × Nat) :=
  [(0x09, 0x0D), (0x20, 0x20), (0x85, 0x85), (0xA0, 0xA0), (0x1680, 0x1680), (0x2000, 0x200A),
   (0x2028, 0x2029), (0x202F, 0x202F), (0x205F, 0x205F), (0x3000, 0x3000)]

/-- Whether a character has the property `White_Space`. -/
def isBlank (c : Char) : Bool :=
  blankRanges.any fun (first, last) => first ≤ c.toNat && c.toNat ≤ last

def trimStart (text : List Char) : List Char :=
  text.dropWhile isBlank

def trimEnd (text : List Char) : List Char :=
  (text.reverse.dropWhile isBlank).reverse

def trim (text : List Char) : List Char :=
  trimEnd (trimStart text)

@[simp] theorem trimStart_nil : trimStart [] = [] := rfl

@[simp] theorem trimEnd_nil : trimEnd [] = [] := rfl

theorem trimStart_cons_of_not_blank {c : Char} {text : List Char} (solid : isBlank c = false) :
    trimStart (c :: text) = c :: text := by
  simp [trimStart, solid]

theorem trimEnd_append_solid {c : Char} {text : List Char} (solid : isBlank c = false) :
    trimEnd (text ++ [c]) = text ++ [c] := by
  simp [trimEnd, solid]

theorem trimStart_append_of_blank {front : List Char} (blank : ∀ c ∈ front, isBlank c) (text : List Char) :
    trimStart (front ++ text) = trimStart text :=
  List.dropWhile_append_of_pos blank

theorem trimEnd_append_of_blank {back : List Char} (blank : ∀ c ∈ back, isBlank c) (text : List Char) :
    trimEnd (text ++ back) = trimEnd text := by
  have reversed : ∀ c ∈ back.reverse, isBlank c := fun c member => blank c (List.mem_reverse.1 member)
  rw [trimEnd, List.reverse_append, List.dropWhile_append_of_pos reversed, trimEnd]

/-- Trimming cuts off blanks only. -/
theorem exists_trim_between (text : List Char) :
    ∃ before after, (∀ c ∈ before, isBlank c) ∧ (∀ c ∈ after, isBlank c) ∧ text = before ++ trim text ++ after := by
  refine ⟨text.takeWhile isBlank, ((trimStart text).reverse.takeWhile isBlank).reverse, ?_, ?_, ?_⟩
  · exact List.all_eq_true.1 List.all_takeWhile
  · exact fun c member => List.all_eq_true.1 List.all_takeWhile c (List.mem_reverse.1 member)
  · rw [trim, trimEnd, List.append_assoc, ← List.reverse_append, List.takeWhile_append_dropWhile, List.reverse_reverse,
      trimStart, List.takeWhile_append_dropWhile]

/-- Trimming finds a text without blanks between blanks. -/
theorem trim_of_solid {before text after : List Char} (blankBefore : ∀ c ∈ before, isBlank c)
    (solid : ∀ c ∈ text, isBlank c = false) (blankAfter : ∀ c ∈ after, isBlank c) :
    trim (before ++ text ++ after) = text := by
  rw [trim, List.append_assoc, trimStart_append_of_blank blankBefore]
  cases text with
  | nil =>
      rw [List.nil_append, ← List.append_nil after, trimStart_append_of_blank blankAfter]
      rfl
  | cons first rest =>
      rw [List.cons_append, trimStart_cons_of_not_blank (solid first List.mem_cons_self), ← List.cons_append,
        trimEnd_append_of_blank blankAfter]
      rcases List.eq_nil_or_concat (first :: rest) with empty | ⟨front, last, whole⟩
      · cases empty
      · rw [List.concat_eq_append] at whole
        rw [whole] at solid ⊢
        exact trimEnd_append_solid (solid last (by simp))

end WordMachine.Text
