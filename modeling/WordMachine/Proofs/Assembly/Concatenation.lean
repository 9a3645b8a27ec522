import WordMachine.Proofs.Assembly.Syntax

/-! # Texts one behind the other

A line break ends whatever stands in front of it: a name, a number or a comment cannot go on behind it, and no word
has one in it.  So everything that is read from the start of a text is read in the same way if a line break and more
text follow, and two programs with a line break between them are one program.
-/

namespace WordMachine

namespace Parsing

variable {input rest behind : List Char}

/-- What stands at the start of a rest when a line is broken behind it. -/
theorem head?_broken {c : Char} (head : (rest ++ '\n' :: behind).head? = some c) :
    rest.head? = some c ∨ c = '\n' := by
  cases rest with
  | nil => exact .inr (Option.some.inj head).symm
  | cons first rest => exact .inl head

theorem Run.broken {member : Char → Bool} {run : List Char} (reads : Run member input run rest)
    (ends : member '\n' = false) : Run member (input ++ '\n' :: behind) run (rest ++ '\n' :: behind) where
  split := by rw [reads.split, List.append_assoc]
  nonempty := reads.nonempty
  inside := reads.inside
  maximal c head := by
    rcases head?_broken head with first | rfl
    · exact reads.maximal c first
    · exact ends

theorem Spelled.broken {spelling word : List Char} (reads : Spelled spelling input word rest) :
    Spelled spelling (input ++ '\n' :: behind) word (rest ++ '\n' :: behind) where
  split := by rw [reads.split, List.append_assoc]
  letters := reads.letters

theorem Line.broken {marker : Char} {line : List Char} (reads : Line marker input line rest) :
    Line marker (input ++ '\n' :: behind) line (rest ++ '\n' :: behind) where
  split := by rw [reads.split, List.append_assoc]
  marked := reads.marked
  inside := reads.inside
  ended c head := by
    rcases head?_broken head with first | rfl
    · exact reads.ended c first
    · rfl

end Parsing

namespace Assembly.Syntax

open Parsing

variable {input rest behind : List Char}

theorem Blank.broken (blank : Blank input rest) : Blank (input ++ '\n' :: behind) (rest ++ '\n' :: behind) := by
  cases blank with
  | space blank => exact .space blank
  | comment line => exact .comment line.broken

theorem Blanks.broken (blanks : Blanks input rest) : Blanks (input ++ '\n' :: behind) (rest ++ '\n' :: behind) :=
  Relation.ReflTransGen.lift (· ++ '\n' :: behind) (fun _ _ => Blank.broken) _ _ blanks

theorem Gap.broken (gap : Gap input rest) : Gap (input ++ '\n' :: behind) (rest ++ '\n' :: behind) :=
  Relation.TransGen.lift (· ++ '\n' :: behind) (fun _ _ => Blank.broken) _ _ gap

theorem Word.broken {words : List String} (word : Word words input rest) :
    Word words (input ++ '\n' :: behind) (rest ++ '\n' :: behind) := by
  obtain ⟨spelling, member, letters, reads⟩ := word
  exact ⟨spelling, member, letters, reads.broken⟩

theorem Literal.broken {value : Nat} (literal : Literal input value rest) :
    Literal (input ++ '\n' :: behind) value (rest ++ '\n' :: behind) := by
  obtain ⟨run, bound⟩ := literal
  exact .mk (run.broken rfl) bound

theorem Label.broken {name : String} (label : Label input name rest) :
    Label (input ++ '\n' :: behind) name (rest ++ '\n' :: behind) := by
  obtain ⟨run⟩ := label
  exact .mk (run.broken rfl)

theorem Colon.broken (colon : Colon input rest) : Colon (input ++ '\n' :: behind) (rest ++ '\n' :: behind) := by
  cases colon with
  | absent => exact .absent
  | present => exact .present

theorem LabelDefinitions.broken {names : List String} (definitions : LabelDefinitions input names rest) :
    LabelDefinitions (input ++ '\n' :: behind) names (rest ++ '\n' :: behind) := by
  induction definitions with
  | none => exact .none
  | more first _ ih =>
      obtain ⟨label, colon, blanks⟩ := first
      exact .more (.mk label.broken colon.broken blanks.broken) ih

theorem RegisterName.broken {register : Register} (name : RegisterName input register rest) :
    RegisterName (input ++ '\n' :: behind) register (rest ++ '\n' :: behind) := by
  obtain ⟨spelled⟩ := name
  exact .mk spelled.broken

theorem ArgumentText.broken {argument : Argument String} (text : ArgumentText input argument rest) :
    ArgumentText (input ++ '\n' :: behind) argument (rest ++ '\n' :: behind) := by
  cases text with
  | accumulator register => exact .accumulator register.broken
  | immediate literal => exact .immediate literal.broken
  | direct literal => exact .direct literal.broken
  | label label => exact .label label.broken

theorem Separator.broken (separator : Separator input rest) :
    Separator (input ++ '\n' :: behind) (rest ++ '\n' :: behind) := by
  cases separator with
  | comma before after => exact .comma before.broken after.broken
  | gap gap => exact .gap gap.broken

theorem Body.broken {shape : Shape String} (body : Body input shape rest) :
    Body (input ++ '\n' :: behind) shape (rest ++ '\n' :: behind) := by
  cases body with
  | nullary kind word => exact .nullary kind word.broken
  | data word gap literal => exact .data word.broken gap.broken literal.broken
  | jump word gap operand => exact .jump word.broken gap.broken operand.broken
  | not word gap name => exact .not word.broken gap.broken name.broken
  | binary kind word gap name separator text =>
      exact .binary kind word.broken gap.broken name.broken separator.broken text.broken

theorem StatementText.broken {statement : Statement} (text : StatementText input statement rest) :
    StatementText (input ++ '\n' :: behind) statement (rest ++ '\n' :: behind) := by
  obtain ⟨definitions, body⟩ := text
  exact .mk definitions.broken body.broken

theorem gap_newline (rest : List Char) : Gap ('\n' :: rest) rest := .single (.space (by decide))

/-- Behind a gap stand further statements, or nothing but blanks. -/
theorem ProgramText.others_of_gap {statements : List Statement} (program : ProgramText rest statements)
    (gap : Gap input rest) : Others input statements := by
  cases program with
  | empty blanks => exact .done (gap.to_reflTransGen.trans blanks)
  | statements blanks text others => exact .next (gap.trans_left blanks) text others

theorem Others.append {front back : List Statement} (others : Others input front)
    (program : ProgramText behind back) : Others (input ++ '\n' :: behind) (front ++ back) := by
  induction others with
  | done blanks => exact program.others_of_gap ((gap_newline behind).trans_right blanks.broken)
  | next gap text _ ih => exact .next gap.broken text.broken ih

/-- Two programs with a line break between them are one program. -/
theorem ProgramText.append {front back : List Statement} (first : ProgramText input front)
    (second : ProgramText behind back) : ProgramText (input ++ '\n' :: behind) (front ++ back) := by
  cases first with
  | empty blanks =>
      have leading : Blanks (input ++ '\n' :: behind) behind :=
        blanks.broken.trans (gap_newline behind).to_reflTransGen
      cases second with
      | empty others => exact .empty (leading.trans others)
      | statements others text more => exact .statements (leading.trans others) text more
  | statements blanks text others => exact .statements blanks.broken text.broken (others.append second)

end Assembly.Syntax

end WordMachine
