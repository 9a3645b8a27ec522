import Mathlib
import WordMachine.Proofs.Parsing.Patterns

/-! # Repeated matches leave nothing to match

A pattern that reads something wherever it matches can be matched again and again until it does not match any more.
Patterns are such unless they have an empty word or take the line break for the marker of a line.  A single match is
as long as it can be: a run of characters, the rest of a line, or the longest of several words.
-/

namespace WordMachine.Parsing

/-- A part of a text in front of a rest, of all initial parts of a kind the longest one. -/
structure Longest (kind : List Char → Prop) (input value rest : List Char) : Prop where
  split : input = value ++ rest
  included : kind value
  bound : ∀ front, front <+: input → kind front → front.length ≤ value.length

namespace Pattern

/-- No word of the pattern is empty, and its marker is no line break. -/
def Consuming : Pattern → Prop
  | text expected => expected ≠ []
  | char _ => True
  | noCase spelling => spelling ≠ []
  | anyNoCase spellings => [] ∉ spellings
  | takeWhile1 _ => True
  | lineComment marker => marker ≠ '\n'

end Pattern

theorem Spelled.nonempty {spelling input word rest : List Char} (reads : Spelled spelling input word rest)
    (solid : spelling ≠ []) : word ≠ [] := by
  rintro rfl
  exact solid (List.length_eq_zero_iff.1 reads.length_eq.symm)

theorem Line.nonempty {marker : Char} {input line rest : List Char} (reads : Line marker input line rest) :
    line ≠ [] := by
  rintro rfl
  cases reads.marked

section Runs

variable {member : Char → Bool} {input run rest : List Char}

/-- A run is the longest initial part within its class. -/
theorem run_iff_longest :
    Run member input run rest ↔ run ≠ [] ∧ Longest (fun front => ∀ c ∈ front, member c = true) input run rest := by
  constructor
  · intro reads
    refine ⟨reads.nonempty, reads.split, reads.inside, fun front start inside => ?_⟩
    have whole : front <+: input.takeWhile member := by
      obtain ⟨behind, rfl⟩ := start
      rw [List.takeWhile_append_of_pos inside]
      exact List.prefix_append _ _
    rw [reads.eq_takeWhile] at whole
    exact whole.length_le
  · rintro ⟨nonempty, split, inside, bound⟩
    refine ⟨split, nonempty, inside, fun c head => ?_⟩
    cases included : member c with
    | false => rfl
    | true =>
        -- The run could go on with this character.
        obtain ⟨behind, rfl⟩ := List.head?_eq_some_iff.1 head
        have front : run ++ [c] <+: input := ⟨behind, by rw [split, List.append_assoc, List.singleton_append]⟩
        have longer := bound _ front (List.forall_mem_append.2 ⟨inside, List.forall_mem_singleton.2 included⟩)
        rw [List.length_append, List.length_singleton] at longer
        omega

end Runs

section Lines

variable {marker : Char} {input line rest : List Char}

/-- A line is its marker and all behind it up to a line break or the end of the text. -/
theorem line_iff_marked (inline : marker ≠ '\n') :
    Line marker input line rest ↔ input = line ++ rest ∧
      ∃ others, line = marker :: others ∧ '\n' ∉ others ∧ (rest = [] ∨ ∃ behind, rest = '\n' :: behind) := by
  constructor
  · rintro ⟨split, marked, inside, ended⟩
    obtain ⟨others, rfl⟩ := List.head?_eq_some_iff.1 marked
    refine ⟨split, others, rfl, fun member => inside (List.mem_cons_of_mem _ member), ?_⟩
    cases rest with
    | nil => exact .inl rfl
    | cons c behind => exact .inr ⟨behind, by rw [ended c rfl]⟩
  · rintro ⟨split, others, rfl, inside, ended⟩
    refine ⟨split, rfl, by simp [inside, Ne.symm inline], fun c head => ?_⟩
    rcases ended with rfl | ⟨behind, rfl⟩
    · cases head
    · exact (Option.some.inj head).symm

end Lines

namespace Parser

variable {pattern : Pattern} {input value rest : List Char}

theorem matched_text_eq_parsed_iff {expected : List Char} :
    matched (.text expected) input = .parsed value rest ↔ input = expected ++ rest ∧ value = expected := by
  rw [matched_eq_parsed_iff]
  simp only [Pattern.matchLength?, Option.ite_none_right_eq_some, Option.some.injEq, List.isPrefixOf_iff_prefix]
  constructor
  · rintro ⟨_, ⟨⟨behind, rfl⟩, rfl⟩, rfl, rfl⟩
    simp
  · rintro ⟨rfl, rfl⟩
    exact ⟨_, ⟨List.prefix_append _ _, rfl⟩, by simp, by simp⟩

theorem matchLength?_eq_none_iff : pattern.matchLength? input = none ↔ Rejects (matched pattern) input := by
  constructor
  · intro none
    have failed : matched pattern input = .failed input := by rw [matched, none]
    exact rejects_of_failed failed
  · intro rejects
    cases found : pattern.matchLength? input with
    | none => rfl
    | some length => exact absurd (matched_eq_parsed_iff.2 ⟨length, found, rfl, rfl⟩) (rejects _ _)

/-- Patterns that read the same where they match fail alike. -/
theorem matched_congr {other : Pattern}
    (same : ∀ value rest, matched pattern input = .parsed value rest ↔ matched other input = .parsed value rest) :
    matched pattern input = matched other input := by
  have failed : ∀ {pattern : Pattern}, Rejects (matched pattern) input → matched pattern input = .failed input := by
    intro pattern rejects
    rw [matched, matchLength?_eq_none_iff.2 rejects]
  cases result : matched other input with
  | parsed value rest => exact (same value rest).2 result
  | failed rest =>
      have rejects := rejects_of_failed result
      rw [← result, failed rejects]
      exact failed fun value rest parsed => rejects value rest ((same value rest).1 parsed)

theorem matched_anyNoCase_iff_longest {spellings : List (List Char)} :
    matched (.anyNoCase spellings) input = .parsed value rest ↔
      Longest (fun front => ∃ spelling ∈ spellings, front.map Char.toLower = spelling.map Char.toLower) input value
        rest := by
  rw [matched_anyNoCase_eq_parsed_iff]
  constructor
  · rintro ⟨⟨spelling, member, split, letters⟩, bound⟩
    refine ⟨split, ⟨spelling, member, letters⟩, ?_⟩
    rintro front ⟨behind, start⟩ ⟨other, listed, same⟩
    exact bound other listed front behind ⟨start.symm, same⟩
  · rintro ⟨split, ⟨spelling, member, letters⟩, bound⟩
    refine ⟨⟨spelling, member, split, letters⟩, ?_⟩
    intro other listed word behind reads
    exact bound word ⟨behind, reads.split.symm⟩ ⟨other, listed, reads.letters⟩

/-- A match of such a pattern is never empty. -/
theorem nonempty_of_matched (consuming : pattern.Consuming) (parsed : matched pattern input = .parsed value rest) :
    value ≠ [] := by
  cases pattern with
  | text expected =>
      rw [(matched_text_eq_parsed_iff.1 parsed).2]
      exact consuming
  | char expected =>
      rw [(matched_char_eq_parsed_iff.1 parsed).2]
      exact List.cons_ne_nil _ _
  | noCase spelling => exact (matched_noCase_eq_parsed_iff.1 parsed).nonempty consuming
  | anyNoCase spellings =>
      obtain ⟨⟨spelling, member, reads⟩, -⟩ := matched_anyNoCase_eq_parsed_iff.1 parsed
      exact reads.nonempty fun empty => consuming (empty ▸ member)
  | takeWhile1 member => exact (matched_takeWhile1_eq_parsed_iff.1 parsed).nonempty
  | lineComment marker => exact ((matched_lineComment_eq_parsed_iff consuming).1 parsed).nonempty

/-- A line break as a marker is left over with the rest of the text. -/
theorem matched_lineComment_newline (behind : List Char) :
    matched (.lineComment '\n') ('\n' :: behind) = .parsed [] ('\n' :: behind) := by
  simp [matched, Pattern.matchLength?]

/-- Every other pattern matches some text without reading of it. -/
theorem exists_empty_match (idle : ¬ pattern.Consuming) : ∃ input, matched pattern input = .parsed [] input := by
  cases pattern with
  | text expected =>
      obtain rfl : expected = [] := Decidable.not_not.1 idle
      exact ⟨[], rfl⟩
  | char expected => exact absurd trivial idle
  | noCase spelling =>
      obtain rfl : spelling = [] := Decidable.not_not.1 idle
      exact ⟨[], rfl⟩
  | anyNoCase spellings =>
      have listed : [] ∈ spellings := Decidable.not_not.1 idle
      refine ⟨[], matched_anyNoCase_eq_parsed_iff.2 ⟨⟨[], listed, rfl, rfl⟩, ?_⟩⟩
      intro spelling _ word behind reads
      have nothing : word = [] := (List.append_eq_nil_iff.1 reads.split.symm).1
      exact nothing ▸ Nat.le_refl _
  | takeWhile1 member => exact absurd trivial idle
  | lineComment marker =>
      obtain rfl : marker = '\n' := Decidable.not_not.1 idle
      exact ⟨['\n'], matched_lineComment_newline []⟩

theorem consuming_iff :
    pattern.Consuming ↔ ∀ input value rest, matched pattern input = .parsed value rest → value ≠ [] := by
  constructor
  · exact fun consuming input value rest => nonempty_of_matched consuming
  · intro reads
    refine Classical.byContradiction fun idle => ?_
    obtain ⟨input, empty⟩ := exists_empty_match idle
    exact reads input [] input empty rfl

theorem shortens_matched (consuming : pattern.Consuming) : Shortens (matched pattern) := by
  intro input value rest parsed
  rw [← matched_append_rest parsed]
  exact utf8Length_lt (nonempty_of_matched consuming parsed)

/-- A repetition that ends on a failure leaves a text that its parser rejects. -/
theorem rejects_of_many {α : Type} {parser : Parser α} {values : List α} (shortens : Shortens parser)
    (parsed : many parser input = .parsed values rest) : Rejects parser rest :=
  ((many_eq_parsed_iff shortens).1 parsed).2.rejects

end Parser

open WordMachine.Parsing.Parser in
/-- A pattern reads of every text that it matches, exactly if none of its words is empty and its marker is no line
    break.  If such patterns are matched again and again, one or any of several, none of them matches what is left.
    A single match is the longest part of its class or the longest of the words, in whatever order they are given, or a
    marker with the rest of its line. -/
theorem repeated_matches_are_maximal (pattern : Pattern) (patterns : List Pattern) (input : List Char) :
    (pattern.Consuming ↔ ∀ input value rest, matched pattern input = .parsed value rest → value ≠ []) ∧
    (pattern.Consuming → ∀ values rest,
      many (matched pattern) input = .parsed values rest → pattern.matchLength? rest = none) ∧
    ((∀ pattern ∈ patterns, pattern.Consuming) → ∀ values rest,
      many (either (patterns.map matched)) input = .parsed values rest →
        ∀ pattern ∈ patterns, pattern.matchLength? rest = none) ∧
    (∀ member value rest, matched (.takeWhile1 member) input = .parsed value rest ↔
      value ≠ [] ∧ Longest (fun front => ∀ c ∈ front, member c = true) input value rest) ∧
    (∀ marker, marker ≠ '\n' → ∀ value rest, matched (.lineComment marker) input = .parsed value rest ↔
      input = value ++ rest ∧
        ∃ others, value = marker :: others ∧ '\n' ∉ others ∧ (rest = [] ∨ ∃ behind, rest = '\n' :: behind)) ∧
    ∀ spellings,
      (∀ value rest, matched (.anyNoCase spellings) input = .parsed value rest ↔
        Longest (fun front => ∃ spelling ∈ spellings, front.map Char.toLower = spelling.map Char.toLower) input value
          rest) ∧
      ∀ others, (∀ spelling, spelling ∈ spellings ↔ spelling ∈ others) →
        matched (.anyNoCase spellings) input = matched (.anyNoCase others) input := by
  refine ⟨consuming_iff, ?_, ?_, fun member value rest => ?_, fun marker inline value rest => ?_,
    fun spellings => ⟨fun value rest => matched_anyNoCase_iff_longest, fun others same => ?_⟩⟩
  · intro consuming values rest repeated
    exact matchLength?_eq_none_iff.2 (rejects_of_many (shortens_matched consuming) repeated)
  · intro consuming values rest repeated pattern member
    have shortens : Shortens (either (patterns.map matched)) :=
      shortens_either (List.forall_mem_map.2 fun pattern member => shortens_matched (consuming pattern member))
    have rejects := rejects_either_iff.1 (rejects_of_many shortens repeated)
    exact matchLength?_eq_none_iff.2 (rejects _ (List.mem_map_of_mem member))
  · exact matched_takeWhile1_eq_parsed_iff.trans run_iff_longest
  · exact (matched_lineComment_eq_parsed_iff inline).trans (line_iff_marked inline)
  · refine matched_congr fun value rest => ?_
    simp only [matched_anyNoCase_iff_longest, same]

/-- Spaces, words in any order, and comments. -/
def scraps : List Pattern :=
  [.takeWhile1 (· = ' '), .anyNoCase [['n', 'o'], ['n', 'o', 'o', 'p'], ['n', 'o', 't']], .lineComment ';']

theorem repeated_matches_are_maximal_scraps :
    (∀ pattern ∈ scraps, pattern.Consuming) ∧
      Parser.many (Parser.either (scraps.map Parser.matched)) "NOop  ;é\nno".toList =
        .parsed ["NOop".toList, "  ".toList, ";é".toList] "\nno".toList ∧
      (∀ pattern ∈ scraps, pattern.matchLength? "\nno".toList = none) ∧
      Parser.matched (.lineComment ';') ";é\nno".toList = .parsed ";é".toList "\nno".toList := by
  obtain ⟨-, -, maximal, -⟩ := repeated_matches_are_maximal (.char 'n') scraps "NOop  ;é\nno".toList
  obtain ⟨-, -, -, -, line, -⟩ := repeated_matches_are_maximal (.char 'n') scraps ";é\nno".toList
  have consuming : ∀ pattern ∈ scraps, pattern.Consuming := by
    simp [scraps, Pattern.Consuming]
  have repeated : Parser.many (Parser.either (scraps.map Parser.matched)) "NOop  ;é\nno".toList =
      .parsed ["NOop".toList, "  ".toList, ";é".toList] "\nno".toList := by cbv
  refine ⟨consuming, repeated, maximal consuming _ _ repeated, ?_⟩
  exact (line ';' (by decide) _ _).2 ⟨rfl, ['é'], rfl, by decide, .inr ⟨['n', 'o'], rfl⟩⟩

/-- A line break as a marker is not read with the line that it starts, and a repetition ends in front of it. -/
theorem newline_marker_stays :
    Parser.matched (.lineComment '\n') ['\n', 'a', '\n', 'b'] = .parsed [] ['\n', 'a', '\n', 'b'] ∧
      Parser.many (Parser.matched (.lineComment '\n')) ['\n', 'a', '\n', 'b'] = .parsed [[]] ['\n', 'a', '\n', 'b'] ∧
      (Pattern.lineComment '\n').matchLength? ['\n', 'a', '\n', 'b'] ≠ none := by
  refine ⟨by decide, by cbv, by decide⟩

end WordMachine.Parsing
