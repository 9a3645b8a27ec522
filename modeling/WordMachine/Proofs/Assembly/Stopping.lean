import WordMachine.Proofs.Assembly.Recognition
import WordMachine.Proofs.Assembly.Truncation
import WordMachine.Proofs.Parsing.Offsets
import WordMachine.Proofs.Text.Lines

/-! # Where the reading of a text stops

Every text has a front that is a program and a rest in which no statement can be read any more: blanks are read up to
the rest, and either there is no statement behind them or the rest stands right behind a statement.  If the rest is not
empty, the fault of the text names its place by line and column and shows the rest of the line.
-/

namespace WordMachine.Assembly.Syntax

open Parsing Parser Grammar

section Ends

variable {input mid rest : List Char}

/-- What is read of a text ends in a character that starts no blank. -/
def EndsSolid (input rest : List Char) : Prop :=
  ∃ front c, input = front ++ c :: rest ∧ Solid c

theorem endsSolid_of_split {word : List Char} (split : input = word ++ rest) (nonempty : word ≠ [])
    (solid : ∀ c ∈ word, Solid c) : EndsSolid input rest := by
  rcases List.eq_nil_or_concat word with rfl | ⟨front, c, rfl⟩
  · exact absurd rfl nonempty
  · rw [List.concat_eq_append] at split solid
    refine ⟨front, c, ?_, solid c (by simp)⟩
    rw [split, List.append_assoc, List.singleton_append]

theorem EndsSolid.of_suffix (ends : EndsSolid mid rest) (suffix : mid <:+ input) : EndsSolid input rest := by
  obtain ⟨front, c, rfl, solid⟩ := ends
  obtain ⟨before, rfl⟩ := suffix
  exact ⟨before ++ front, c, by rw [List.append_assoc], solid⟩

theorem Literal.endsSolid {value : Nat} (literal : Literal input value rest) : EndsSolid input rest := by
  obtain ⟨run, -⟩ := literal
  exact endsSolid_of_split run.split run.nonempty fun c member => solid_of_isDigit (run.inside c member)

theorem Label.endsSolid {name : String} (label : Label input name rest) : EndsSolid input rest := by
  obtain ⟨run⟩ := label
  have ends := endsSolid_of_split run.split run.nonempty fun c member => solid_of_isWord (run.inside c member)
  exact ends.of_suffix (List.suffix_cons _ _)

theorem solid_of_mem_registerSpelling (register : Register) :
    ∀ c ∈ lowered (registerSpelling register), Solid c := by
  have word : (lowered (registerSpelling register)).all isWord = true := by
    cases register <;> decide
  intro c member
  exact solid_of_isWord (List.all_eq_true.1 word c member)

theorem RegisterName.endsSolid {register : Register} (name : RegisterName input register rest) :
    EndsSolid input rest := by
  obtain ⟨spelled⟩ := name
  refine endsSolid_of_split spelled.split ?_ fun c member => solid_of_toLower ?_
  · rintro rfl
    have length := spelled.length_eq
    rw [length_registerSpelling] at length
    cases length
  · apply solid_of_mem_registerSpelling register
    rw [lowered, ← spelled.letters]
    exact List.mem_map_of_mem member

theorem ArgumentText.endsSolid {argument : Argument String} (text : ArgumentText input argument rest) :
    EndsSolid input rest := by
  cases text with
  | accumulator register => exact register.endsSolid
  | immediate literal => exact literal.endsSolid.of_suffix (List.suffix_cons _ _)
  | direct literal => exact literal.endsSolid
  | label label => exact label.endsSolid

theorem Word.endsSolid {kind : Option Opcode} (word : Word (wordsOf kind) input rest) : EndsSolid input rest := by
  obtain ⟨spelling, listed, letters, spelled⟩ := word
  have reads : WordOf kind input letters rest := ⟨spelling, listed, spelled⟩
  refine endsSolid_of_split reads.split ?_ reads.solid
  rintro rfl
  have start := head?_lowered kind (mem_wordKinds kind) spelling listed
  rw [lowered, ← spelled.letters] at start
  cases start

theorem suffix_of_word {words : List String} {behindWord field : List Char} (word : Word words input behindWord)
    (gap : Gap behindWord field) : field <:+ input :=
  (cutsOff_gap.suffix gap).trans ((cutsOff_word words).suffix word)

theorem Body.endsSolid {shape : Shape String} (body : Body input shape rest) : EndsSolid input rest := by
  cases body with
  | @nullary _ opcode _ word => exact Word.endsSolid (show Word (wordsOf (some opcode)) _ _ from word)
  | data word gap literal => exact literal.endsSolid.of_suffix (suffix_of_word word gap)
  | jump word gap operand => exact operand.endsSolid.of_suffix (suffix_of_word word gap)
  | not word gap name => exact name.endsSolid.of_suffix (suffix_of_word word gap)
  | binary kind word gap name separator text =>
      have operand := (cutsOff_separator.suffix separator).trans ((cutsOff_registerName _).suffix name)
      exact text.endsSolid.of_suffix (operand.trans (suffix_of_word word gap))

theorem StatementText.endsSolid {value : Statement} (text : StatementText input value rest) :
    EndsSolid input rest := by
  obtain ⟨definitions, body⟩ := text
  exact body.endsSolid.of_suffix ((cutsOff_labelDefinitions _).suffix definitions)

end Ends

section Program

variable {input rest back : List Char} {values : List Statement}

/-- The last of some statements with gaps before them ends where they end. -/
theorem endsSolid_of_iterates (iterates : Iterates (thenRead ignored statement) input values rest) :
    input = rest ∨ EndsSolid input rest := by
  induction iterates with
  | stop _ => exact .inl rfl
  | step parsed _ ih =>
      obtain ⟨start, gap, text⟩ := next_eq_parsed_iff.1 parsed
      have before := cutsOff_gap.suffix gap
      rcases ih with rfl | ends
      · exact .inr (text.endsSolid.of_suffix before)
      · exact .inr (ends.of_suffix (((cutsOff_statementText _).suffix text).trans before))

/-- Statements with gaps before them, and blanks, are the others of a program without what stands behind them. -/
theorem others_of_iterates (iterates : Iterates (thenRead ignored statement) input values rest)
    (blanks : Blanks rest back) : ∃ front, input = front ++ back ∧ Others front values := by
  induction iterates with
  | stop _ =>
      obtain ⟨front, rfl, blanks'⟩ := @cutsOff_blanks _ [] _ blanks
      exact ⟨front, rfl, .done blanks'⟩
  | step parsed _ ih =>
      obtain ⟨behind, rfl, others⟩ := ih blanks
      obtain ⟨start, gap, text⟩ := next_eq_parsed_iff.1 parsed
      obtain ⟨start, rfl, text'⟩ := cutsOff_statementText _ text
      obtain ⟨front, rfl, gap'⟩ := cutsOff_gap gap
      exact ⟨front, rfl, .next gap' text' others⟩

/-- Where statements with gaps before them end, blanks are not followed by another statement. -/
theorem rejects_of_iterates (iterates : Iterates (thenRead ignored statement) input values rest)
    (blanks : Blanks rest back) : rest = back ∨ Rejects statement back := by
  rcases Relation.reflTransGen_iff_eq_or_transGen.1 blanks with rfl | gap
  · exact .inl rfl
  · refine .inr ?_
    intro value behind parsed
    exact iterates.rejects value behind (next_eq_parsed_iff.2 ⟨back, gap, statement_eq_parsed_iff.1 parsed⟩)

/-- Where the reading of a program stops: in front is a program, behind is no blank, and either no statement can be
    read there or one has ended just there. -/
theorem program_stops (source : List Char) : ∃ statements front rest,
    program source = .parsed statements rest ∧ source = front ++ rest ∧ ProgramText front statements ∧ Stops rest ∧
      (Rejects statement rest ∨ EndsSolid source rest) := by
  obtain ⟨skipped, mid, leading⟩ := exists_optional_eq_parsed ignored source
  obtain ⟨first, behind, read⟩ := exists_optional_eq_parsed statement mid
  obtain ⟨values, left, more⟩ := exists_optional_eq_parsed (many (thenRead ignored statement)) behind
  obtain ⟨blanks, rest, trailing⟩ := exists_optional_eq_parsed ignored left
  have parsed : program source = .parsed (first.toList ++ values.getD []) rest := by
    refine mapValue_eq_parsed_iff.2 ⟨(skipped, first, values, blanks), ?_, rfl⟩
    exact both_eq_parsed_iff.2 ⟨mid, leading, both_eq_parsed_iff.2 ⟨behind, read, both_eq_parsed_iff.2
      ⟨left, more, trailing⟩⟩⟩
  obtain ⟨before, solid⟩ := optional_ignored_eq_parsed_iff.1 ⟨_, leading⟩
  obtain ⟨after, stops⟩ := optional_ignored_eq_parsed_iff.1 ⟨_, trailing⟩
  have iterates := (optional_many_eq_parsed_iff shortens_next).1 ⟨values, more, rfl⟩
  obtain ⟨value, rfl, accepted⟩ | ⟨rfl, rfl, rejects⟩ := optional_eq_parsed_iff.1 read
  · have text := statement_eq_parsed_iff.1 accepted
    have stopped : Rejects statement rest ∨ EndsSolid source rest := by
      have start := cutsOff_blanks.suffix before
      rcases rejects_of_iterates iterates after with rfl | rejects
      · rcases endsSolid_of_iterates iterates with rfl | ends
        · exact .inr (text.endsSolid.of_suffix start)
        · exact .inr (ends.of_suffix (((cutsOff_statementText _).suffix text).trans start))
      · exact .inl rejects
    obtain ⟨others, rfl, others'⟩ := others_of_iterates iterates after
    obtain ⟨start, rfl, text'⟩ := cutsOff_statementText _ text
    obtain ⟨front, rfl, before'⟩ := cutsOff_blanks before
    exact ⟨_, front, rest, parsed, rfl, .statements before' text' others', stops, stopped⟩
  · -- Behind the first blanks there is neither a statement nor another gap.
    have none : values.getD [] = [] ∧ left = behind := by
      generalize values.getD [] = statements at iterates
      cases iterates with
      | stop _ => exact ⟨rfl, rfl⟩
      | step first _ =>
          obtain ⟨start, gap, -⟩ := next_eq_parsed_iff.1 first
          obtain ⟨next, blank, -⟩ := Relation.TransGen.head'_iff.1 gap
          exact absurd blank (solid next)
    obtain ⟨nothing, rfl⟩ := none
    obtain rfl := Blanks.unique after .refl stops solid
    obtain ⟨front, rfl, before'⟩ := @cutsOff_blanks _ [] _ before
    rw [nothing] at parsed
    exact ⟨_, front, rest, parsed, rfl, .empty before', stops, .inl rejects⟩

end Program

section Place

variable {front back : List Char} {c : Char}

theorem exists_line {marker : Char} (inline : marker ≠ '\n') (others : List Char) :
    ∃ line rest, Line marker (marker :: others) line rest := by
  refine ⟨_, _, List.takeWhile_append_dropWhile.symm, ?_, Text.newline_not_mem_takeWhile _, ?_⟩
  · simp [inline]
  · intro c head
    simpa using head?_dropWhile _ _ c head

/-- Where no blank starts, the text is at its end or goes on with a character that starts no blank. -/
theorem Stops.solid {others : List Char} (stops : Stops (c :: others)) : Solid c where
  visible := by
    rw [Bool.eq_false_iff]
    exact fun blank => stops others (.space blank)
  plain := by
    rintro rfl
    obtain ⟨line, rest, comment⟩ := exists_line (show ';' ≠ '\n' by decide) others
    exact stops rest (.comment comment)

theorem Solid.inline (solid : Solid c) : c ≠ '\n' := by
  rintro rfl
  cases solid.visible

theorem trimEnd_cons_ne_nil (solid : Solid c) (text : List Char) : Text.trimEnd (c :: text) ≠ [] := by
  intro nothing
  have blank := List.dropWhile_eq_nil_iff.1 (List.reverse_eq_nil_iff.1 nothing) c (by simp)
  rw [solid.visible] at blank
  cases blank

/-- Between two characters that start no blank, no blank and no comment ends. -/
theorem not_blank_of_solid {last : Char} (ended : Solid last) (starts : Solid c) (others : List Char)
    {piece : List Char} (behind : piece <:+ front ++ [last]) : ¬ Blank (piece ++ c :: others) (c :: others) := by
  intro blank
  generalize whole : piece ++ c :: others = input at blank
  cases blank with
  | @space first _ blank =>
      obtain rfl : piece = [first] := List.append_cancel_right whole
      obtain ⟨before, same⟩ := behind
      obtain rfl := (List.cons.inj (List.append_inj_right' same rfl)).1
      rw [ended.visible] at blank
      cases blank
  | comment line => exact starts.inline (line.ended c rfl)

end Place

section Fault

/-- What the fault of a text says about the place where it cannot be read any more, between a front and a back. -/
structure Locates (source : String) (line column : Nat) (near : String) (front back : List Char) : Prop where
  fits : utf8Length back ≤ utf8Length source.toList
  boundary : cut? (utf8Length source.toList - utf8Length back) source.toList = some (front, back)
  onLine : line = front.count '\n' + 1
  inColumn : ∃ current, Text.LastLine front current ∧ column = current.length + 1
  restOfLine : ∃ text, (source.toList.splitOn '\n')[line - 1]? = some text ∧
    near = String.ofList (Text.trimEnd (text.drop (column - 1)))
  shown : near ≠ ""
  solid : ∃ c others, back = c :: others ∧ Solid c
  accepted : ∃ statements, parse (String.ofList front) = .ok statements
  /-- No statement can be read there, or it would have to stand right behind something that is neither a blank nor a
      comment. -/
  unread : Rejects statement back ∨ (front ≠ [] ∧ ∀ piece, piece <:+ front → ¬ Blank (piece ++ back) back)

variable {source : String} {front back : List Char}

theorem faultAt_append (front back : List Char) : faultAt (front ++ back) back =
    .parse (front.count '\n' + 1) ((front.reverse.takeWhile (· ≠ '\n')).length + 1)
      (String.ofList (Text.trimEnd (back.takeWhile (· ≠ '\n')))) := by
  simp [faultAt]

/-- A text with something left to read behind a program has the fault of that place. -/
theorem locates_of_split {statements : List Statement} {c : Char} {others : List Char}
    (split : source.toList = front ++ c :: others) (text : ProgramText front statements) (solid : Solid c)
    (unread : Rejects statement (c :: others) ∨ EndsSolid source.toList (c :: others)) :
    Locates source (front.count '\n' + 1) ((front.reverse.takeWhile (· ≠ '\n')).length + 1)
      (String.ofList (Text.trimEnd ((c :: others).takeWhile (· ≠ '\n')))) front (c :: others) where
  fits := by
    rw [split, utf8Length_append]
    exact Nat.le_add_left _ _
  boundary := by
    rw [split, utf8Length_append, Nat.add_sub_cancel]
    exact cut?_append front _
  onLine := rfl
  inColumn := ⟨_, Text.lastLine_takeWhile front, by rw [List.length_reverse]⟩
  restOfLine := by
    refine ⟨(front.reverse.takeWhile (· ≠ '\n')).reverse ++ (c :: others).takeWhile (· ≠ '\n'), ?_, ?_⟩
    · rw [split, Nat.add_sub_cancel]
      exact Text.getElem?_splitOn_append (Text.lastLine_takeWhile front) _
    · rw [Nat.add_sub_cancel, List.drop_left' List.length_reverse]
  shown := by
    have visible : ((c :: others).takeWhile (· ≠ '\n')) = c :: others.takeWhile (· ≠ '\n') :=
      List.takeWhile_cons_of_pos (decide_eq_true solid.inline)
    rw [visible, ← String.ofList_nil, Ne, String.ofList_inj]
    exact trimEnd_cons_ne_nil solid _
  solid := ⟨c, others, rfl, solid⟩
  accepted := by
    refine ⟨statements, parse_eq_ok_iff.2 ?_⟩
    rwa [String.toList_ofList]
  unread := by
    refine unread.imp_right ?_
    rintro ⟨before, last, again, ended⟩
    obtain rfl : front = before ++ [last] := by
      have whole : front ++ c :: others = before ++ [last] ++ c :: others := by
        rw [← split, again, List.append_assoc, List.singleton_append]
      exact List.append_cancel_right whole
    exact ⟨by simp, fun piece behind => not_blank_of_solid ended solid others behind⟩

/-- The fault of a text that cannot be read as a whole names the place where the reading stopped. -/
theorem fault_locates_unread_text {fault : Fault} (failed : parse source = .error fault) :
    ∃ line column near front back, fault = .parse line column near ∧
      (program source.toList).rest = back ∧ Locates source line column near front back := by
  obtain ⟨statements, front, rest, parsed, split, text, stops, unread⟩ := program_stops source.toList
  rw [parse, parsed] at failed
  cases rest with
  | nil => cases failed
  | cons c others =>
      have located : faultAt source.toList (c :: others) = fault := Except.error.inj failed
      rw [split, faultAt_append] at located
      exact ⟨_, _, _, front, c :: others, located.symm, by rw [parsed]; rfl,
        locates_of_split split text stops.solid unread⟩

/-- A place behind a comment and a line break, on a line with a character of two bytes. -/
theorem fault_locates_accented : parse "nop ; é\r\n\tnopé" = .error (.parse 2 5 "é") ∧
    ∃ line column near front back, Fault.parse 2 5 "é" = .parse line column near ∧
      (program "nop ; é\r\n\tnopé".toList).rest = back ∧
        Locates "nop ; é\r\n\tnopé" line column near front back := by
  have failed : parse "nop ; é\r\n\tnopé" = .error (.parse 2 5 "é") := by decide +kernel
  exact ⟨failed, fault_locates_unread_text failed⟩

end Fault

end WordMachine.Assembly.Syntax
