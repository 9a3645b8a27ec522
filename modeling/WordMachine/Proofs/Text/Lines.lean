import Mathlib

/-! # Lines of a text

The lines of a text are what its line breaks divide it into.  A place in a text stands on a line: so many lines are in
front of that line as there are line breaks in front of the place, and the front of the line is the last line of what
stands in front of the place.
-/

namespace WordMachine.Text

/-- What stands behind the last line break of a text. -/
structure LastLine (text line : List Char) : Prop where
  unbroken : '\n' ∉ line
  split : ∃ before, text = before ++ line ∧ (before = [] ∨ ∃ front, before = front ++ ['\n'])

theorem newline_not_mem_takeWhile (text : List Char) : '\n' ∉ text.takeWhile (· ≠ '\n') := by
  intro member
  simpa using List.all_eq_true.1 List.all_takeWhile _ member

/-- Behind the first line of a text stands a line break, or nothing. -/
theorem dropWhile_cases (text : List Char) :
    text.dropWhile (· ≠ '\n') = [] ∨ ∃ others, text.dropWhile (· ≠ '\n') = '\n' :: others := by
  have stopped := List.head?_dropWhile_not (· ≠ '\n') text
  cases behind : text.dropWhile (· ≠ '\n') with
  | nil => exact .inl rfl
  | cons c others =>
      rw [behind] at stopped
      obtain rfl : c = '\n' := by simpa using stopped
      exact .inr ⟨others, rfl⟩

theorem lastLine_takeWhile (text : List Char) : LastLine text (text.reverse.takeWhile (· ≠ '\n')).reverse where
  unbroken member := newline_not_mem_takeWhile _ (List.mem_reverse.1 member)
  split := by
    refine ⟨(text.reverse.dropWhile (· ≠ '\n')).reverse, ?_, ?_⟩
    · rw [← List.reverse_append, List.takeWhile_append_dropWhile, List.reverse_reverse]
    · rcases dropWhile_cases text.reverse with nothing | ⟨others, behind⟩
      · exact .inl (by rw [nothing, List.reverse_nil])
      · exact .inr ⟨others.reverse, by rw [behind, List.reverse_cons]⟩

theorem length_splitOn (text : List Char) : (text.splitOn '\n').length = text.count '\n' + 1 := by
  induction text with
  | nil => rfl
  | cons c text ih =>
      rw [List.splitOn_eq_splitOnP] at ih ⊢
      rw [List.splitOnP_cons_eq_if_modifyHead]
      by_cases newline : c = '\n'
      · simp [newline, ih]
      · simp [newline, ih]

theorem splitOn_append_newline (front back : List Char) :
    (front ++ '\n' :: back).splitOn '\n' = front.splitOn '\n' ++ back.splitOn '\n' :=
  List.splitOnP_append_cons front back rfl

theorem splitOn_of_not_mem {line : List Char} (unbroken : '\n' ∉ line) : line.splitOn '\n' = [line] := by
  refine List.splitOnP_eq_singleton fun c member => ?_
  rw [beq_eq_false_iff_ne]
  rintro rfl
  exact unbroken member

/-- The first line of a text that starts with a part of a line. -/
theorem getElem?_splitOn_zero {line : List Char} (unbroken : '\n' ∉ line) (back : List Char) :
    ((line ++ back).splitOn '\n')[0]? = some (line ++ back.takeWhile (· ≠ '\n')) := by
  have whole : '\n' ∉ line ++ back.takeWhile (· ≠ '\n') := by
    rw [List.mem_append, not_or]
    exact ⟨unbroken, newline_not_mem_takeWhile back⟩
  have split : line ++ back = line ++ back.takeWhile (· ≠ '\n') ++ back.dropWhile (· ≠ '\n') := by
    rw [List.append_assoc, List.takeWhile_append_dropWhile]
  rw [split]
  rcases dropWhile_cases back with nothing | ⟨others, behind⟩
  · rw [nothing, List.append_nil, splitOn_of_not_mem whole, List.getElem?_cons_zero]
  · rw [behind, splitOn_append_newline, splitOn_of_not_mem whole, List.singleton_append, List.getElem?_cons_zero]

/-- The line of a text on which its front ends. -/
theorem getElem?_splitOn_append {front line : List Char} (last : LastLine front line) (back : List Char) :
    ((front ++ back).splitOn '\n')[front.count '\n']? = some (line ++ back.takeWhile (· ≠ '\n')) := by
  obtain ⟨unbroken, before, rfl, start⟩ := last
  have noBreak : line.count '\n' = 0 := List.count_eq_zero.2 unbroken
  rw [List.count_append, noBreak, Nat.add_zero, List.append_assoc]
  rcases start with rfl | ⟨front, rfl⟩
  · exact getElem?_splitOn_zero unbroken back
  · rw [List.append_assoc, List.singleton_append, splitOn_append_newline, List.count_append, List.count_singleton_self,
      ← length_splitOn, List.getElem?_append_right (Nat.le_refl _), Nat.sub_self]
    exact getElem?_splitOn_zero unbroken back

end WordMachine.Text
