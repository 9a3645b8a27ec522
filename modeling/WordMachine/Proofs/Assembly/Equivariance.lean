import WordMachine.Proofs.Assembly.Recasing

/-! # The case of a program

Every production of the grammar reads a text in another case as the same with its labels in that case, or fails where
it fails.  So parsing commutes with the change of a text to upper case and to lower case, and the case of letters
outside the names of labels does not count.
-/

namespace WordMachine.Assembly

open Parsing Parser Grammar

namespace Recasing

variable {recasing : Recasing}

section Grammar

theorem respects_ignored : Respects (recasing.Alike false) Eq ignored := by
  have piece : Respects (recasing.Alike false) (fun _ _ => True)
      (either [matched (.takeWhile1 Text.isBlank), matched (.lineComment ';')]) := by
    apply respects_either
    simp only [List.forall_mem_cons, List.not_mem_nil, false_implies, implies_true, and_true]
    exact ⟨respects_takeWhile1 Text.isBlank_eq_of_toLower_eq (by decide), respects_lineComment rfl⟩
  exact (piece.many fun _ _ alike => alike.utf8Length_eq).mapValue fun _ _ _ => rfl

theorem respects_keyword {spellings : List String} (unmarked : ∀ spelling ∈ spellings, Unmarked spelling.toList) :
    Respects (recasing.Alike false) (fun _ _ => True) (keyword spellings) :=
  respects_anyNoCase (List.forall_mem_map.2 unmarked)

theorem respects_name {α : Type} {same : α → α → Prop} (register : Register) {value : α} (kept : same value value) :
    Respects (recasing.Alike false) same (matchedAs (.noCase register.name.toList) value) := by
  have unmarked : Unmarked register.name.toList := by cases register <;> decide
  exact (respects_noCase unmarked).mapValue fun _ _ _ => kept

theorem respects_register : Respects (recasing.Alike false) Eq register := by
  apply respects_either
  intro parser member
  obtain ⟨register, -, rfl⟩ := List.mem_map.1 member
  exact respects_name register rfl

theorem respects_labelDefinition :
    Respects (recasing.Alike false) (fun name again => again = recasing.rename name) labelDefinition :=
  respects_label.followedBy ((respects_char rfl (by decide)).optional.both respects_ignored.optional)

theorem respects_argument :
    Respects (recasing.Alike false) (fun argument again => again = argument.map recasing.rename) argument := by
  apply respects_either
  simp only [List.forall_mem_cons, List.not_mem_nil, false_implies, implies_true, and_true]
  refine ⟨?_, ?_, ?_, ?_⟩
  · exact respects_name Register.accumulator rfl
  · exact ((respects_char rfl (by decide)).thenRead respects_literal).mapValue fun _ _ same => same ▸ rfl
  · exact respects_literal.mapValue fun _ _ same => same ▸ rfl
  · exact respects_label.mapValue fun _ _ same => same ▸ rfl

theorem respects_separator : Respects (recasing.Alike false) Eq separator := by
  have blanks := (@respects_ignored recasing).optional
  apply respects_either
  simp only [List.forall_mem_cons, List.not_mem_nil, false_implies, implies_true, and_true]
  exact ⟨(blanks.both ((respects_char rfl (by decide)).both blanks)).mapValue fun _ _ _ => rfl, respects_ignored⟩

theorem unmarked_words : ∀ entry ∈ nullaryWords ++ binaryWords, ∀ spelling ∈ entry.2, Unmarked spelling.toList := by
  decide +kernel

theorem respects_operation {words : List (Opcode × List String)} (listed : words ⊆ nullaryWords ++ binaryWords) :
    Respects (recasing.Alike false) Eq (operation words) := by
  apply respects_either
  intro parser member
  obtain ⟨entry, found, rfl⟩ := List.mem_map.1 member
  exact (respects_keyword (unmarked_words entry (listed found))).mapValue fun _ _ _ => rfl

theorem respects_wordWith {α : Type} {same : α → α → Prop} {spellings : List String} {object : Parser α}
    (unmarked : ∀ spelling ∈ spellings, Unmarked spelling.toList)
    (respects : Respects (recasing.Alike false) same object) :
    Respects (recasing.Alike false) same (wordWith spellings object) :=
  (respects_keyword unmarked).thenRead (respects_ignored.thenRead respects)

theorem respects_body : Respects (recasing.Alike false) (fun shape again => again = shape.map recasing.rename)
    (either [nullary, unary, binary]) := by
  apply respects_either
  simp only [List.forall_mem_cons, List.not_mem_nil, false_implies, implies_true, and_true]
  refine ⟨?_, respects_either ?_, ?_⟩
  · exact (respects_operation (List.subset_append_left _ _)).mapValue fun _ _ same => same ▸ rfl
  · simp only [List.forall_mem_cons, List.not_mem_nil, false_implies, implies_true, and_true]
    refine ⟨?_, ?_, ?_⟩
    · exact (respects_wordWith (by decide) respects_literal).mapValue fun _ _ same => same ▸ rfl
    · exact (respects_wordWith (by decide) respects_argument).mapValue fun _ _ same => same ▸ rfl
    · exact (respects_wordWith (by decide) respects_register).mapValue fun _ _ same => same ▸ rfl
  · have operand := respects_register.both (respects_separator.thenRead (@respects_argument recasing))
    refine ((respects_operation (List.subset_append_right _ _)).both (respects_ignored.thenRead operand)).mapValue ?_
    rintro ⟨opcode, register, argument⟩ ⟨_, _, _⟩ ⟨rfl, rfl, rfl⟩
    rfl

section Values

variable {α β : Type} {change : α → β}

theorem eq_map_of_forall₂ {values : List α} {changed : List β}
    (each : List.Forall₂ (fun value again => again = change value) values changed) : changed = values.map change := by
  induction each with
  | nil => rfl
  | cons first _ ih => rw [first, ih, List.map_cons]

theorem getD_eq_map {values : Option (List α)} {changed : Option (List β)}
    (each : Option.Rel (List.Forall₂ fun value again => again = change value) values changed) :
    changed.getD [] = (values.getD []).map change := by
  cases each with
  | none => rfl
  | some each => exact eq_map_of_forall₂ each

theorem toList_eq_map {value : Option α} {changed : Option β}
    (each : Option.Rel (fun value again => again = change value) value changed) :
    changed.toList = value.toList.map change := by
  cases each with
  | none => rfl
  | some same => rw [same, Option.toList_some, Option.toList_some, List.map_singleton]

end Values

theorem respects_statement :
    Respects (recasing.Alike false) (fun value again => again = value.rename recasing.rename) statement := by
  have definitions := (@respects_labelDefinition recasing).many fun _ _ alike => alike.utf8Length_eq
  refine (definitions.optional.both respects_body).mapValue ?_
  rintro ⟨labels, shape⟩ ⟨again, _⟩ ⟨names, rfl⟩
  exact congrArg (Statement.mk · _) (getD_eq_map names)

theorem respects_program : Respects (recasing.Alike false)
    (fun statements again => again = statements.map (Statement.rename recasing.rename)) program := by
  have others := (respects_ignored.thenRead (@respects_statement recasing)).many
    fun _ _ alike => alike.utf8Length_eq
  refine (respects_ignored.optional.both (respects_statement.optional.both
    (others.optional.both respects_ignored.optional))).mapValue ?_
  rintro ⟨_, first, others, _⟩ ⟨_, again, behind, _⟩ ⟨-, firsts, rests, -⟩
  change again.toList ++ behind.getD [] = (first.toList ++ others.getD []).map _
  rw [toList_eq_map firsts, getD_eq_map rests, List.map_append]

end Grammar

section Sources

variable {source other : String}

/-- A text in another case is accepted with its names in that case, or refused where it was refused before. -/
theorem parse_cases (alike : recasing.Alike false source.toList other.toList) :
    (∃ statements, parse source = .ok statements ∧
      parse other = .ok (statements.map (Statement.rename recasing.rename))) ∨
    ∃ rest behind, parse source = .error (faultAt source.toList rest) ∧
      parse other = .error (faultAt other.toList behind) ∧ recasing.Alike false rest behind := by
  obtain ⟨statements, _, rest, behind, one, two, rfl, rests⟩ | ⟨rest, behind, one, two, rests⟩ :=
    respects_program.cases alike
  · unfold parse
    cases rests with
    | nil => exact .inl ⟨statements, by rw [one], by rw [two]⟩
    | @other _ a b text again free letter others =>
        exact .inr ⟨a :: text, b :: again, by rw [one]; rfl, by rw [two]; rfl, .other free letter others⟩
  · unfold parse
    exact .inr ⟨rest, behind, by rw [one]; rfl, by rw [two]; rfl, rests⟩

end Sources

/-- All letters changed in the same way. -/
def everywhere (change : Char → Char) (keeps : ∀ c, (change c).toLower = c.toLower) : Recasing where
  inName a b := b = change a
  outside a b := b = change a
  rename name := name.map change
  inName_case := by
    rintro a _ rfl
    exact (keeps a).symm
  outside_case := by
    rintro a _ rfl
    exact (keeps a).symm
  renames := by
    intro name again letters
    rw [eq_map_of_forall₂ letters]
    apply String.toList_injective
    rw [String.toList_ofList, String.toList_map, String.toList_ofList]

/-- Letters outside the names of labels changed, each for itself. -/
def outsideNames : Recasing where
  inName a b := a = b
  outside a b := a.toLower = b.toLower
  rename := id
  inName_case := by
    rintro a _ rfl
    rfl
  outside_case := id
  renames := by
    intro name again letters
    rw [List.forall₂_eq_eq_eq] at letters
    rw [letters, id]

instance : DecidableRel outsideNames.inName := inferInstanceAs (DecidableRel (Eq : Char → Char → Prop))

instance : DecidableRel outsideNames.outside := fun a b => inferInstanceAs (Decidable (a.toLower = b.toLower))

section Everywhere

variable {change : Char → Char} (keeps : ∀ c, (change c).toLower = c.toLower)

theorem alike_map (named : Bool) (text : List Char) : (everywhere change keeps).Alike named text (text.map change) := by
  induction text generalizing named with
  | nil => exact .nil
  | cons c text ih =>
      cases named with
      | false => exact .other (fun absurd => by cases absurd) rfl (ih _)
      | true =>
          cases word : isWord c with
          | true => exact .name word rfl (ih true)
          | false => exact .other (fun _ => word) rfl (ih _)

variable {keeps}

theorem Alike.eq_map {named : Bool} {text again : List Char}
    (alike : (everywhere change keeps).Alike named text again) : again = text.map change := by
  induction alike with
  | nil => rfl
  | name _ letter _ ih => rw [letter, ih, List.map_cons]
  | other _ letter _ ih => rw [letter, ih, List.map_cons]

end Everywhere

end Recasing

section Faults

variable {change : Char → Char} (keeps : ∀ c, (change c).toLower = c.toLower)

include keeps

theorem inline_map (c : Char) : decide (change c ≠ '\n') = decide (c ≠ '\n') :=
  Recasing.caseless_inline (keeps c)

theorem takeWhile_inline_map (text : List Char) :
    (text.map change).takeWhile (· ≠ '\n') = (text.takeWhile (· ≠ '\n')).map change := by
  rw [List.takeWhile_map, show (decide <| · ≠ '\n') ∘ change = (decide <| · ≠ '\n') from funext (inline_map keeps)]

theorem count_newline_map (text : List Char) : (text.map change).count '\n' = text.count '\n' := by
  rw [List.count_eq_countP, List.count_eq_countP, List.countP_map]
  refine congrArg (List.countP · text) (funext fun c => ?_)
  rw [Function.comp_apply, beq_eq_decide, beq_eq_decide]
  exact decide_eq_decide.2 (Text.eq_iff_of_toLower_eq rfl (keeps c))

theorem trimEnd_map (text : List Char) : Text.trimEnd (text.map change) = (Text.trimEnd text).map change := by
  have blank : Text.isBlank ∘ change = Text.isBlank := funext fun c => Text.isBlank_eq_of_toLower_eq (keeps c)
  rw [Text.trimEnd, ← List.map_reverse, List.dropWhile_map, blank, ← List.map_reverse, Text.trimEnd]

end Faults

/-- A fault with another text in the place of what is shown of the line. -/
def Fault.mapNear (change : String → String) : Fault → Fault
  | .parse line column near => .parse line column (change near)
  | fault => fault

theorem faultAt_map {change : Char → Char} (keeps : ∀ c, (change c).toLower = c.toLower) (source rest : List Char) :
    faultAt (source.map change) (rest.map change) = (faultAt source rest).mapNear (String.map change) := by
  simp only [faultAt, List.length_map, ← List.map_take, ← List.map_reverse, count_newline_map keeps,
    takeWhile_inline_map keeps, trimEnd_map keeps, Fault.mapNear, Fault.parse.injEq, true_and]
  apply String.toList_injective
  rw [String.toList_ofList, String.toList_map, String.toList_ofList]

/-- The outcome of parsing with other names for all labels, and with another text in a fault. -/
def recased (change : String → String) : Except Fault (List Statement) → Except Fault (List Statement)
  | .ok statements => .ok (statements.map (Statement.rename change))
  | .error fault => .error (fault.mapNear change)

theorem parse_map {change : Char → Char} (keeps : ∀ c, (change c).toLower = c.toLower) (source : String) :
    parse (source.map change) = recased (String.map change) (parse source) := by
  have texts : (Recasing.everywhere change keeps).Alike false source.toList (source.map change).toList := by
    rw [String.toList_map]
    exact Recasing.alike_map keeps false source.toList
  obtain ⟨statements, one, two⟩ | ⟨rest, behind, one, two, rests⟩ := Recasing.parse_cases texts
  · rw [one, two]
    rfl
  · rw [one, two, rests.eq_map, String.toList_map, faultAt_map keeps]
    rfl

/-- Parsing commutes with the change of a text to upper case and to lower case: only the names of labels change with
    the text, and what is shown of it in a fault.  Texts that differ in the case of letters outside the names of labels
    are read as the same statements. -/
theorem parse_commutes_with_case (source : String) :
    parse source.toUpper = recased String.toUpper (parse source) ∧
      parse source.toLower = recased String.toLower (parse source) ∧
      ∀ other : String, Recasing.outsideNames.Alike false source.toList other.toList →
        ∀ statements, parse other = .ok statements ↔ parse source = .ok statements := by
  refine ⟨parse_map Char.toLower_toUpper_eq_toLower source, parse_map Char.toLower_toLower_eq_toLower source, ?_⟩
  intro other alike statements
  obtain ⟨values, one, two⟩ | ⟨rest, behind, one, two, -⟩ := Recasing.parse_cases alike
  · have same : values.map (Statement.rename Recasing.outsideNames.rename) = values :=
      (List.map_congr_left fun value _ => value.rename_id).trans (List.map_id _)
    rw [one, two, same]
  · simp only [one, two, reduceCtorEq]

/-- A program with a name in mixed case. -/
def mixedStatements (name : String) : List Statement := [⟨[name], .unary .jump none (some (.label name))⟩]

/-- In upper case the name changes too; with other letters in upper case it does not. -/
theorem parse_commutes_with_case_mixed :
    Recasing.outsideNames.Alike false "@Go: jmp @Go".toList "@Go: Jmp @Go".toList ∧
      parse "@Go: jmp @Go" = .ok (mixedStatements "Go") ∧
      parse "@GO: JMP @GO" = .ok (mixedStatements "GO") ∧
      parse "@go: jmp @go" = .ok (mixedStatements "go") ∧
      parse "@Go: Jmp @Go" = .ok (mixedStatements "Go") := by
  have alike : Recasing.outsideNames.Alike false "@Go: jmp @Go".toList "@Go: Jmp @Go".toList := by decide
  have capitals : "@Go: jmp @Go".toUpper = "@GO: JMP @GO" := by decide +kernel
  have small : "@Go: jmp @Go".toLower = "@go: jmp @go" := by decide +kernel
  have parsed : parse "@Go: jmp @Go" = .ok (mixedStatements "Go") := by cbv
  have inCapitals : (mixedStatements "Go").map (Statement.rename String.toUpper) = mixedStatements "GO" := by
    decide +kernel
  have inSmall : (mixedStatements "Go").map (Statement.rename String.toLower) = mixedStatements "go" := by
    decide +kernel
  obtain ⟨upper, lower, outside⟩ := parse_commutes_with_case "@Go: jmp @Go"
  rw [capitals, parsed] at upper
  rw [small, parsed] at lower
  exact ⟨alike, parsed, upper.trans (congrArg Except.ok inCapitals), lower.trans (congrArg Except.ok inSmall),
    (outside "@Go: Jmp @Go" alike _).2 parsed⟩

end WordMachine.Assembly
