import WordMachine.Proofs.Assembly.Syntax

/-! # Texts without their end

What is read of a text does not depend on what stands behind it: if a text is cut off somewhere in what is left of it,
the same is read of the front.  A run or a comment that went as far as it could before a character goes as far as it
can before the end of the text too.
-/

namespace WordMachine

namespace Parsing

/-- What stands at the end of the rest can be cut off: the same is read of the front of the text. -/
def CutsOff (reads : List Char → List Char → Prop) : Prop :=
  ∀ ⦃input rest back : List Char⦄, reads input (rest ++ back) → ∃ front, input = front ++ back ∧ reads front rest

theorem CutsOff.suffix {reads : List Char → List Char → Prop} (cuts : CutsOff reads) {input rest : List Char}
    (read : reads input rest) : rest <:+ input := by
  have cut : ∃ front, input = front ++ rest ∧ reads front [] := cuts read
  obtain ⟨front, rfl, -⟩ := cut
  exact List.suffix_append front rest

theorem head?_append_of_head? {rest back : List Char} {c : Char} (head : rest.head? = some c) :
    (rest ++ back).head? = some c := by
  obtain ⟨others, rfl⟩ := List.head?_eq_some_iff.1 head
  rfl

theorem cutsOff_run (member : Char → Bool) (run : List Char) : CutsOff (Run member · run ·) := by
  intro input rest back reads
  refine ⟨run ++ rest, ?_, rfl, reads.nonempty, reads.inside, ?_⟩
  · rw [reads.split, List.append_assoc]
  · intro c head
    exact reads.maximal c (head?_append_of_head? head)

theorem cutsOff_spelled (spelling word : List Char) : CutsOff (Spelled spelling · word ·) := by
  intro input rest back reads
  exact ⟨word ++ rest, by rw [reads.split, List.append_assoc], rfl, reads.letters⟩

theorem cutsOff_line (marker : Char) (line : List Char) : CutsOff (Line marker · line ·) := by
  intro input rest back reads
  refine ⟨line ++ rest, ?_, rfl, reads.marked, reads.inside, ?_⟩
  · rw [reads.split, List.append_assoc]
  · intro c head
    exact reads.ended c (head?_append_of_head? head)

end Parsing

namespace Assembly.Syntax

open Parsing

theorem cutsOff_blank : CutsOff Blank := by
  intro input rest back blank
  generalize left : rest ++ back = behind at blank
  cases blank with
  | space blank =>
      subst left
      exact ⟨_ :: rest, rfl, .space blank⟩
  | comment line =>
      subst left
      obtain ⟨front, rfl, line'⟩ := cutsOff_line _ _ line
      exact ⟨front, rfl, .comment line'⟩

theorem cutsOff_blanks : CutsOff Blanks := by
  intro input rest back blanks
  induction blanks using Relation.ReflTransGen.head_induction_on with
  | refl => exact ⟨rest, rfl, .refl⟩
  | head first _ ih =>
      obtain ⟨mid, rfl, others⟩ := ih
      obtain ⟨front, rfl, first'⟩ := cutsOff_blank first
      exact ⟨front, rfl, .head first' others⟩

theorem cutsOff_gap : CutsOff Gap := by
  intro input rest back gap
  obtain ⟨mid, first, others⟩ := Relation.TransGen.head'_iff.1 gap
  obtain ⟨mid, rfl, others'⟩ := cutsOff_blanks others
  obtain ⟨front, rfl, first'⟩ := cutsOff_blank first
  exact ⟨front, rfl, .head' first' others'⟩

theorem cutsOff_word (words : List String) : CutsOff (Word words) := by
  rintro input rest back ⟨spelling, member, letters, reads⟩
  obtain ⟨front, rfl, reads'⟩ := cutsOff_spelled _ _ reads
  exact ⟨front, rfl, spelling, member, letters, reads'⟩

theorem cutsOff_literal (value : Nat) : CutsOff (Literal · value ·) := by
  rintro input rest back ⟨run, bound⟩
  obtain ⟨front, rfl, run'⟩ := cutsOff_run _ _ run
  exact ⟨front, rfl, .mk run' bound⟩

theorem cutsOff_label (name : String) : CutsOff (Label · name ·) := by
  rintro input rest back ⟨run⟩
  obtain ⟨front, rfl, run'⟩ := cutsOff_run _ _ run
  exact ⟨'@' :: front, rfl, .mk run'⟩

theorem cutsOff_colon : CutsOff Colon := by
  intro input rest back colon
  cases colon with
  | absent => exact ⟨rest, rfl, .absent⟩
  | present => exact ⟨':' :: rest, rfl, .present⟩

theorem cutsOff_labelDefinition (name : String) : CutsOff (LabelDefinition · name ·) := by
  rintro input rest back ⟨label, colon, blanks⟩
  obtain ⟨behindColon, rfl, blanks'⟩ := cutsOff_blanks blanks
  obtain ⟨behindName, rfl, colon'⟩ := cutsOff_colon colon
  obtain ⟨front, rfl, label'⟩ := cutsOff_label _ label
  exact ⟨front, rfl, .mk label' colon' blanks'⟩

theorem cutsOff_labelDefinitions (names : List String) : CutsOff (LabelDefinitions · names ·) := by
  intro input rest back definitions
  generalize left : rest ++ back = behind at definitions
  induction definitions with
  | none => exact ⟨rest, left.symm, .none⟩
  | more first _ ih =>
      obtain ⟨mid, rfl, others⟩ := ih left
      obtain ⟨front, rfl, first'⟩ := cutsOff_labelDefinition _ first
      exact ⟨front, rfl, .more first' others⟩

theorem cutsOff_registerName (register : Register) : CutsOff (RegisterName · register ·) := by
  rintro input rest back ⟨spelled⟩
  obtain ⟨front, rfl, spelled'⟩ := cutsOff_spelled _ _ spelled
  exact ⟨front, rfl, .mk spelled'⟩

theorem cutsOff_argumentText (argument : Argument String) : CutsOff (ArgumentText · argument ·) := by
  intro input rest back text
  cases text with
  | accumulator register =>
      obtain ⟨front, rfl, register'⟩ := cutsOff_registerName _ register
      exact ⟨front, rfl, .accumulator register'⟩
  | immediate literal =>
      obtain ⟨front, rfl, literal'⟩ := cutsOff_literal _ literal
      exact ⟨'#' :: front, rfl, .immediate literal'⟩
  | direct literal =>
      obtain ⟨front, rfl, literal'⟩ := cutsOff_literal _ literal
      exact ⟨front, rfl, .direct literal'⟩
  | label label =>
      obtain ⟨front, rfl, label'⟩ := cutsOff_label _ label
      exact ⟨front, rfl, .label label'⟩

theorem cutsOff_separator : CutsOff Separator := by
  intro input rest back separator
  cases separator with
  | comma before behind =>
      obtain ⟨mid, rfl, behind'⟩ := cutsOff_blanks behind
      rw [← List.cons_append] at before
      obtain ⟨front, rfl, before'⟩ := cutsOff_blanks before
      exact ⟨front, rfl, .comma before' behind'⟩
  | gap gap =>
      obtain ⟨front, rfl, gap'⟩ := cutsOff_gap gap
      exact ⟨front, rfl, .gap gap'⟩

theorem cutsOff_body (shape : Shape String) : CutsOff (Body · shape ·) := by
  intro input rest back body
  cases body with
  | nullary kind word =>
      obtain ⟨front, rfl, word'⟩ := cutsOff_word _ word
      exact ⟨front, rfl, .nullary kind word'⟩
  | data word gap literal =>
      obtain ⟨field, rfl, literal'⟩ := cutsOff_literal _ literal
      obtain ⟨behindWord, rfl, gap'⟩ := cutsOff_gap gap
      obtain ⟨front, rfl, word'⟩ := cutsOff_word _ word
      exact ⟨front, rfl, .data word' gap' literal'⟩
  | jump word gap operand =>
      obtain ⟨field, rfl, operand'⟩ := cutsOff_argumentText _ operand
      obtain ⟨behindWord, rfl, gap'⟩ := cutsOff_gap gap
      obtain ⟨front, rfl, word'⟩ := cutsOff_word _ word
      exact ⟨front, rfl, .jump word' gap' operand'⟩
  | not word gap name =>
      obtain ⟨field, rfl, name'⟩ := cutsOff_registerName _ name
      obtain ⟨behindWord, rfl, gap'⟩ := cutsOff_gap gap
      obtain ⟨front, rfl, word'⟩ := cutsOff_word _ word
      exact ⟨front, rfl, .not word' gap' name'⟩
  | binary kind word gap name separator text =>
      obtain ⟨operand, rfl, text'⟩ := cutsOff_argumentText _ text
      obtain ⟨behindName, rfl, separator'⟩ := cutsOff_separator separator
      obtain ⟨field, rfl, name'⟩ := cutsOff_registerName _ name
      obtain ⟨behindWord, rfl, gap'⟩ := cutsOff_gap gap
      obtain ⟨front, rfl, word'⟩ := cutsOff_word _ word
      exact ⟨front, rfl, .binary kind word' gap' name' separator' text'⟩

theorem cutsOff_statementText (statement : Statement) : CutsOff (StatementText · statement ·) := by
  rintro input rest back ⟨definitions, body⟩
  obtain ⟨mid, rfl, body'⟩ := cutsOff_body _ body
  obtain ⟨front, rfl, definitions'⟩ := cutsOff_labelDefinitions _ definitions
  exact ⟨front, rfl, .mk definitions' body'⟩

end Assembly.Syntax

end WordMachine
