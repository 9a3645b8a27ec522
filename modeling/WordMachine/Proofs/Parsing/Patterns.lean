import WordMachine.Proofs.Parsing.Combinators

/-! # What patterns match

The texts that a pattern matches, said without reference to lengths: a run of characters, a word in any case, the
rest of a line.  Each is a relation between a text, what is read of it, and what is left.
-/

namespace WordMachine.Parsing

/-- A text read up to a rest: as many characters of a class as there are, and at least one. -/
structure Run (member : Char → Bool) (input run rest : List Char) : Prop where
  split : input = run ++ rest
  nonempty : run ≠ []
  inside : ∀ c ∈ run, member c = true
  maximal : ∀ c, rest.head? = some c → member c = false

/-- A text read up to a rest: a word in any case. -/
structure Spelled (spelling input word rest : List Char) : Prop where
  split : input = word ++ rest
  letters : word.map Char.toLower = spelling.map Char.toLower

/-- A text read up to a rest: a marker and the rest of its line. -/
structure Line (marker : Char) (input line rest : List Char) : Prop where
  split : input = line ++ rest
  marked : line.head? = some marker
  inside : '\n' ∉ line
  ended : ∀ c, rest.head? = some c → c = '\n'

theorem Run.eq_takeWhile {member : Char → Bool} {input run rest : List Char} (reads : Run member input run rest) :
    input.takeWhile member = run := by
  have stop : rest.takeWhile member = [] := by
    cases rest with
    | nil => rfl
    | cons c rest => simp [reads.maximal c rfl]
  rw [reads.split, List.takeWhile_append_of_pos reads.inside, stop, List.append_nil]

theorem head?_dropWhile (member : Char → Bool) (input : List Char) (c : Char)
    (head : (input.dropWhile member).head? = some c) : member c = false := by
  have stopped := List.head?_dropWhile_not member input
  rw [head] at stopped
  exact stopped

/-- A text that starts with a character of the class has a run of it. -/
theorem exists_run {member : Char → Bool} {c : Char} (first : member c = true) (others : List Char) :
    ∃ run rest, Run member (c :: others) run rest := by
  refine ⟨_, _, List.takeWhile_append_dropWhile.symm, ?_, List.all_eq_true.1 List.all_takeWhile, head?_dropWhile _ _⟩
  simp [first]

theorem Line.eq_takeWhile {marker : Char} {input line rest : List Char} (reads : Line marker input line rest) :
    input.takeWhile (· ≠ '\n') = line := by
  have inside : ∀ c ∈ line, decide (c ≠ '\n') = true := fun c member =>
    decide_eq_true fun same => reads.inside (same ▸ member)
  have stop : rest.takeWhile (· ≠ '\n') = [] := by
    cases rest with
    | nil => rfl
    | cons c rest => simp [reads.ended c rfl]
  rw [reads.split, List.takeWhile_append_of_pos inside, stop, List.append_nil]

theorem Spelled.length_eq {spelling input word rest : List Char} (reads : Spelled spelling input word rest) :
    word.length = spelling.length := by
  simpa using congrArg List.length reads.letters

theorem Spelled.head {spelling input word rest : List Char} {letter : Char}
    (reads : Spelled spelling input word rest) (first : spelling.head? = some letter) :
    ∃ c others, input = c :: others ∧ c.toLower = letter.toLower := by
  obtain ⟨split, letters⟩ := reads
  cases spelling with
  | nil => cases first
  | cons s spelling =>
      cases first
      cases word with
      | nil => cases letters
      | cons c word => exact ⟨c, word ++ rest, split, (List.cons.inj letters).1⟩

theorem Run.head {member : Char → Bool} {input run rest : List Char} (reads : Run member input run rest) :
    ∃ c others, input = c :: others ∧ member c = true := by
  obtain ⟨split, nonempty, inside, -⟩ := reads
  cases run with
  | nil => exact absurd rfl nonempty
  | cons c run => exact ⟨c, run ++ rest, split, inside c List.mem_cons_self⟩

/-- Of two words at the start of a text, the shorter one is the start of the longer one. -/
theorem Spelled.prefix_of_length_le {long short input longWord shortWord longRest shortRest : List Char}
    (reads : Spelled long input longWord longRest) (other : Spelled short input shortWord shortRest)
    (shorter : shortWord.length ≤ longWord.length) : short.map Char.toLower <+: long.map Char.toLower := by
  rw [← reads.letters, ← other.letters]
  have inside : shortWord <+: longWord :=
    List.prefix_of_prefix_length_le ⟨_, other.split.symm⟩ ⟨_, reads.split.symm⟩ shorter
  exact inside.map _

/-- A text starts with a word in any case if the front of the text is that word. -/
theorem startsNoCase_iff {spelling input : List Char} :
    Pattern.startsNoCase spelling input = true ↔
      Spelled spelling input (input.take spelling.length) (input.drop spelling.length) := by
  induction spelling generalizing input with
  | nil => simpa [Pattern.startsNoCase] using (⟨by simp, by simp⟩ : Spelled [] input [] input)
  | cons a spelling ih =>
      cases input with
      | nil =>
          refine ⟨fun starts => ?_, fun reads => ?_⟩
          · cases starts
          · cases reads.length_eq
      | cons b input =>
          rw [Pattern.startsNoCase, Bool.and_eq_true, ih, Pattern.sameLetter, decide_eq_true_iff]
          constructor
          · rintro ⟨same, reads⟩
            exact ⟨by simp, by simpa [same] using reads.letters⟩
          · intro reads
            have letters := reads.letters
            simp only [List.length_cons, List.take_succ_cons, List.map_cons, List.cons.injEq] at letters
            exact ⟨letters.1.symm, by simp, letters.2⟩

theorem Spelled.eq_take {spelling input word rest : List Char} (reads : Spelled spelling input word rest) :
    input.take spelling.length = word ∧ input.drop spelling.length = rest := by
  rw [← reads.length_eq, reads.split]
  simp

theorem Spelled.starts {spelling input word rest : List Char} (reads : Spelled spelling input word rest) :
    Pattern.startsNoCase spelling input = true := by
  obtain ⟨front, back⟩ := reads.eq_take
  rw [startsNoCase_iff, front, back]
  exact reads

namespace Parser

variable {input value rest : List Char}

theorem matched_eq_parsed_iff {pattern : Pattern} :
    matched pattern input = .parsed value rest ↔
      ∃ length, pattern.matchLength? input = some length ∧ input.take length = value ∧ input.drop length = rest := by
  rw [matched]
  cases pattern.matchLength? input with
  | none => simp
  | some length => simp

theorem matched_char_eq_parsed_iff {c : Char} :
    matched (.char c) input = .parsed value rest ↔ input = c :: rest ∧ value = [c] := by
  rw [matched_eq_parsed_iff]
  cases input with
  | nil => simp [Pattern.matchLength?]
  | cons first others =>
      by_cases same : first = c
      · simp [Pattern.matchLength?, same, and_comm, eq_comm]
      · simp [Pattern.matchLength?, same]

theorem cut_takeWhile (member : Char → Bool) (input : List Char) :
    input.take (input.takeWhile member).length = input.takeWhile member ∧
      input.drop (input.takeWhile member).length = input.dropWhile member := by
  generalize front : input.takeWhile member = run
  generalize back : input.dropWhile member = rest
  rw [← List.takeWhile_append_dropWhile (p := member) (l := input), front, back]
  simp

theorem matched_takeWhile1_eq_parsed_iff {member : Char → Bool} :
    matched (.takeWhile1 member) input = .parsed value rest ↔ Run member input value rest := by
  rw [matched_eq_parsed_iff]
  obtain ⟨front, back⟩ := cut_takeWhile member input
  constructor
  · rintro ⟨length, found, rfl, rfl⟩
    simp only [Pattern.matchLength?] at found
    split at found
    · cases found
    next nonempty =>
    cases found
    rw [front, back]
    refine ⟨List.takeWhile_append_dropWhile.symm, fun empty => nonempty (by rw [empty]; rfl), ?_, head?_dropWhile _ _⟩
    exact List.all_eq_true.1 List.all_takeWhile
  · intro reads
    have run := reads.eq_takeWhile
    refine ⟨value.length, ?_, by rw [reads.split]; simp, by rw [reads.split]; simp⟩
    simp only [Pattern.matchLength?, run]
    exact if_neg fun empty => reads.nonempty (List.length_eq_zero_iff.1 empty)

theorem matched_lineComment_eq_parsed_iff {marker : Char} (inline : marker ≠ '\n') :
    matched (.lineComment marker) input = .parsed value rest ↔ Line marker input value rest := by
  rw [matched_eq_parsed_iff]
  obtain ⟨front, back⟩ := cut_takeWhile (· ≠ '\n') input
  constructor
  · rintro ⟨length, found, rfl, rfl⟩
    simp only [Pattern.matchLength?] at found
    split at found
    next marked =>
      cases found
      rw [front, back]
      refine ⟨List.takeWhile_append_dropWhile.symm, ?_, ?_, ?_⟩
      · cases input with
        | nil => cases marked
        | cons first others =>
            cases marked
            simp [inline]
      · intro member
        simpa using List.all_eq_true.1 List.all_takeWhile _ member
      · intro c head
        simpa using head?_dropWhile _ _ c head
    next => cases found
  · intro reads
    have line := reads.eq_takeWhile
    have marked : input.head? = some marker := by
      rw [reads.split, List.head?_append, reads.marked]
      rfl
    refine ⟨value.length, ?_, by rw [reads.split]; simp, by rw [reads.split]; simp⟩
    simp only [Pattern.matchLength?, line, if_pos marked]

theorem matched_noCase_eq_parsed_iff {spelling : List Char} :
    matched (.noCase spelling) input = .parsed value rest ↔ Spelled spelling input value rest := by
  rw [matched_eq_parsed_iff]
  constructor
  · rintro ⟨length, found, rfl, rfl⟩
    obtain ⟨starts, rfl⟩ := Pattern.noCaseLength?_eq_some_iff.1 found
    exact startsNoCase_iff.1 starts
  · intro reads
    exact ⟨spelling.length, Pattern.noCaseLength?_eq_some_iff.2 ⟨reads.starts, rfl⟩, reads.eq_take⟩

/-- Of several words, the longest one that the text starts with is read. -/
theorem matched_anyNoCase_eq_parsed_iff {spellings : List (List Char)} :
    matched (.anyNoCase spellings) input = .parsed value rest ↔
      (∃ spelling ∈ spellings, Spelled spelling input value rest) ∧
        ∀ spelling ∈ spellings, ∀ word behind, Spelled spelling input word behind → word.length ≤ value.length := by
  rw [matched_eq_parsed_iff]
  simp only [Pattern.matchLength?, List.max?_eq_some_iff, List.mem_filterMap, Pattern.noCaseLength?_eq_some_iff]
  constructor
  · rintro ⟨length, ⟨⟨spelling, member, starts, rfl⟩, longest⟩, rfl, rfl⟩
    have reads := startsNoCase_iff.1 starts
    refine ⟨⟨spelling, member, reads⟩, ?_⟩
    intro other listed word behind spelled
    rw [spelled.length_eq, reads.length_eq]
    exact longest _ ⟨other, listed, spelled.starts, rfl⟩
  · rintro ⟨⟨spelling, member, reads⟩, longest⟩
    refine ⟨spelling.length, ⟨⟨spelling, member, reads.starts, rfl⟩, ?_⟩, reads.eq_take⟩
    rintro _ ⟨other, listed, starts, rfl⟩
    have spelled := startsNoCase_iff.1 starts
    rw [← spelled.length_eq, ← reads.length_eq]
    exact longest other listed _ _ spelled

theorem matchedAs_eq_parsed_iff {α : Type} {pattern : Pattern} {fixed result : α} :
    matchedAs pattern fixed input = .parsed result rest ↔
      (∃ text, matched pattern input = .parsed text rest) ∧ fixed = result := by
  simp [matchedAs, mapValue_eq_parsed_iff]

end Parser

end WordMachine.Parsing
