import WordMachine.Parsing.Parser

/-! # What parsers accept

For each way of building a parser, when it succeeds and with what, in terms of the parsers it is built from.  A
parser is a function, so that what it accepts says also where it fails.
-/

namespace WordMachine.Parsing

theorem utf8Length_lt {front rest : List Char} (nonempty : front ≠ []) :
    utf8Length rest < utf8Length (front ++ rest) := by
  cases front with
  | nil => exact absurd rfl nonempty
  | cons c front =>
      have := c.utf8Size_pos
      have single : utf8Length [c] = c.utf8Size := Nat.zero_add _
      rw [show c :: front ++ rest = [c] ++ (front ++ rest) from rfl, utf8Length_append, utf8Length_append, single]
      omega

namespace Parser

variable {α β : Type} {input rest : List Char}

/-- A parser does not accept any start of a text. -/
def Rejects (parser : Parser α) (input : List Char) : Prop := ∀ value rest, parser input ≠ .parsed value rest

theorem rejects_of_failed {parser : Parser α} (failed : parser input = .failed rest) : Rejects parser input := by
  intro value other parsed
  rw [failed] at parsed
  cases parsed

theorem Rejects.failed {parser : Parser α} (rejects : Rejects parser input) :
    ∃ rest, parser input = .failed rest := by
  cases result : parser input with
  | parsed value rest => exact absurd result (rejects value rest)
  | failed rest => exact ⟨rest, rfl⟩

theorem mapValue_eq_parsed_iff {parser : Parser α} {change : α → β} {value : β} :
    parser.mapValue change input = .parsed value rest ↔
      ∃ before, parser input = .parsed before rest ∧ change before = value := by
  rw [mapValue]
  constructor
  · intro parsed
    cases result : parser input with
    | failed behind =>
        rw [result] at parsed
        cases parsed
    | parsed before behind =>
        rw [result] at parsed
        cases parsed
        exact ⟨before, rfl, rfl⟩
  · rintro ⟨before, parsed, rfl⟩
    rw [parsed]
    rfl

theorem both_eq_parsed_iff {first : Parser α} {second : Parser β} {pair : α × β} :
    both first second input = .parsed pair rest ↔
      ∃ mid, first input = .parsed pair.1 mid ∧ second mid = .parsed pair.2 rest := by
  unfold both
  constructor
  · intro parsed
    split at parsed
    · cases parsed
    next a mid front =>
    split at parsed
    · cases parsed
    next b behind back =>
    cases parsed
    exact ⟨mid, front, back⟩
  · rintro ⟨mid, front, back⟩
    simp only [front, back]

theorem thenRead_eq_parsed_iff {first : Parser α} {second : Parser β} {value : β} :
    thenRead first second input = .parsed value rest ↔
      ∃ before mid, first input = .parsed before mid ∧ second mid = .parsed value rest := by
  simp only [thenRead, mapValue_eq_parsed_iff, both_eq_parsed_iff]
  constructor
  · rintro ⟨⟨before, _⟩, ⟨mid, read⟩, rfl⟩
    exact ⟨before, mid, read⟩
  · rintro ⟨before, mid, read⟩
    exact ⟨(before, value), ⟨mid, read⟩, rfl⟩

theorem followedBy_eq_parsed_iff {first : Parser α} {second : Parser β} {value : α} :
    followedBy first second input = .parsed value rest ↔
      ∃ behind mid, first input = .parsed value mid ∧ second mid = .parsed behind rest := by
  simp only [followedBy, mapValue_eq_parsed_iff, both_eq_parsed_iff]
  constructor
  · rintro ⟨⟨_, behind⟩, ⟨mid, read⟩, rfl⟩
    exact ⟨behind, mid, read⟩
  · rintro ⟨behind, mid, read⟩
    exact ⟨(value, behind), ⟨mid, read⟩, rfl⟩

theorem exists_optional_eq_parsed (parser : Parser α) (input : List Char) :
    ∃ value rest, optional parser input = .parsed value rest := by
  unfold Parser.optional
  cases parser input with
  | parsed value rest => exact ⟨_, _, rfl⟩
  | failed rest => exact ⟨_, _, rfl⟩

/-- An optional parser succeeds on every text. -/
theorem optional_eq_parsed_iff {parser : Parser α} {value : Option α} :
    optional parser input = .parsed value rest ↔
      (∃ inner, value = some inner ∧ parser input = .parsed inner rest) ∨
        (value = none ∧ rest = input ∧ Rejects parser input) := by
  unfold optional
  constructor
  · intro parsed
    split at parsed
    next inner behind read =>
      cases parsed
      exact .inl ⟨inner, rfl, read⟩
    next behind failed =>
      cases parsed
      exact .inr ⟨rfl, rfl, rejects_of_failed failed⟩
  · rintro (⟨inner, rfl, read⟩ | ⟨rfl, rfl, rejects⟩)
    · rw [read]
    · obtain ⟨behind, failed⟩ := rejects.failed
      rw [failed]

@[simp] theorem either_nil_eq_parsed_iff {value : α} : either [] input = .parsed value rest ↔ False := by
  simp [either]

/-- An alternative counts only where those before it fail. -/
theorem either_cons_eq_parsed_iff {parser : Parser α} {others : List (Parser α)} {value : α} :
    either (parser :: others) input = .parsed value rest ↔
      parser input = .parsed value rest ∨ (Rejects parser input ∧ either others input = .parsed value rest) := by
  conv => lhs; unfold either
  unfold Rejects
  cases parser input with
  | parsed inner behind => simp
  | failed _ => simp

theorem exists_of_either_eq_parsed {parsers : List (Parser α)} {value : α}
    (parsed : either parsers input = .parsed value rest) : ∃ parser ∈ parsers, parser input = .parsed value rest := by
  induction parsers with
  | nil => simp at parsed
  | cons parser others ih =>
      rcases either_cons_eq_parsed_iff.1 parsed with first | ⟨-, behind⟩
      · exact ⟨parser, List.mem_cons_self, first⟩
      · obtain ⟨other, member, accepted⟩ := ih behind
        exact ⟨other, List.mem_cons_of_mem _ member, accepted⟩

theorem rejects_either_iff {parsers : List (Parser α)} :
    Rejects (either parsers) input ↔ ∀ parser ∈ parsers, Rejects parser input := by
  induction parsers with
  | nil => simp [Rejects]
  | cons parser others ih =>
      rw [List.forall_mem_cons, ← ih]
      constructor
      · intro rejects
        have first : Rejects parser input :=
          fun value rest parsed => rejects value rest (either_cons_eq_parsed_iff.2 (.inl parsed))
        exact ⟨first, fun value rest parsed => rejects value rest (either_cons_eq_parsed_iff.2 (.inr ⟨first, parsed⟩))⟩
      · rintro ⟨first, behind⟩ value rest parsed
        rcases either_cons_eq_parsed_iff.1 parsed with accepted | ⟨-, accepted⟩
        · exact first value rest accepted
        · exact behind value rest accepted

/-- The order of alternatives does not matter where all but one of them fail. -/
theorem either_map_eq_parsed {ι : Type} {items : List ι} {parser : ι → Parser α} {item : ι} {value : α}
    (member : item ∈ items) (parsed : parser item input = .parsed value rest)
    (only : ∀ other ∈ items, ¬ Rejects (parser other) input → other = item) :
    either (items.map parser) input = .parsed value rest := by
  induction items with
  | nil => cases member
  | cons first others ih =>
      rw [List.map_cons, either_cons_eq_parsed_iff]
      by_cases same : first = item
      · exact .inl (same ▸ parsed)
      · have rejects : Rejects (parser first) input :=
          Classical.byContradiction fun accepts => same (only first List.mem_cons_self accepts)
        have behind : item ∈ others := List.mem_of_ne_of_mem (Ne.symm same) member
        exact .inr ⟨rejects, ih behind fun other listed => only other (List.mem_cons_of_mem _ listed)⟩

/-- A parser applied again and again until it fails. -/
inductive Iterates (parser : Parser α) : List Char → List α → List Char → Prop where
  | stop {input : List Char} (rejects : Rejects parser input) : Iterates parser input [] input
  | step {input mid rest : List Char} {value : α} {values : List α} (parsed : parser input = .parsed value mid)
      (iterates : Iterates parser mid values rest) : Iterates parser input (value :: values) rest

/-- A parser that leaves less than it was given. -/
def Shortens (parser : Parser α) : Prop :=
  ∀ input value rest, parser input = .parsed value rest → utf8Length rest < utf8Length input

theorem iterates_repeated {parser : Parser α} (shortens : Shortens parser) (input : List Char) :
    Iterates parser input (repeated parser input).1 (repeated parser input).2 := by
  induction length : utf8Length input using Nat.strongRecOn generalizing input with
  | ind length ih =>
      subst length
      unfold repeated
      cases result : parser input with
      | failed rest => exact .stop (rejects_of_failed result)
      | parsed value mid =>
          have shorter := shortens _ _ _ result
          simp only [if_pos shorter]
          exact .step result (ih _ shorter mid rfl)

theorem Iterates.unique {parser : Parser α} {values others : List α} {other : List Char}
    (iterates : Iterates parser input values rest) (again : Iterates parser input others other) :
    values = others ∧ rest = other := by
  induction iterates generalizing others with
  | stop rejects =>
      cases again with
      | stop _ => exact ⟨rfl, rfl⟩
      | step parsed _ => exact absurd parsed (rejects _ _)
  | step parsed _ ih =>
      cases again with
      | stop rejects => exact absurd parsed (rejects _ _)
      | step parsed' again =>
          rw [parsed] at parsed'
          cases parsed'
          obtain ⟨rfl, rfl⟩ := ih again
          exact ⟨rfl, rfl⟩

theorem Iterates.rejects {parser : Parser α} {values : List α} (iterates : Iterates parser input values rest) :
    Rejects parser rest := by
  induction iterates with
  | stop rejects => exact rejects
  | step _ _ ih => exact ih

theorem many_eq_parsed_iff {parser : Parser α} (shortens : Shortens parser) {values : List α} :
    many parser input = .parsed values rest ↔ values ≠ [] ∧ Iterates parser input values rest := by
  have iterates := iterates_repeated shortens input
  constructor
  · intro parsed
    rw [many] at parsed
    generalize repeated parser input = result at iterates parsed
    obtain ⟨_ | ⟨first, others⟩, behind⟩ := result
    · cases parsed
    · cases parsed
      exact ⟨List.cons_ne_nil _ _, iterates⟩
  · rintro ⟨nonempty, again⟩
    obtain ⟨same, rests⟩ := iterates.unique again
    rw [many, show repeated parser input = (values, rest) from Prod.ext same rests]
    cases values with
    | nil => exact absurd rfl nonempty
    | cons first others => rfl

theorem optional_many_eq_parsed_iff {parser : Parser α} (shortens : Shortens parser) {values : List α} :
    (∃ read, optional (many parser) input = .parsed read rest ∧ read.getD [] = values) ↔
      Iterates parser input values rest := by
  constructor
  · rintro ⟨read, parsed, rfl⟩
    obtain ⟨inner, rfl, repeated⟩ | ⟨rfl, rfl, rejects⟩ := optional_eq_parsed_iff.1 parsed
    · exact ((many_eq_parsed_iff shortens).1 repeated).2
    · refine .stop ?_
      intro value mid parsed
      have iterates := iterates_repeated shortens mid
      exact rejects _ _ ((many_eq_parsed_iff shortens).2 ⟨List.cons_ne_nil _ _, .step parsed iterates⟩)
  · intro iterates
    cases iterates with
    | stop rejects =>
        refine ⟨none, optional_eq_parsed_iff.2 (.inr ⟨rfl, rfl, ?_⟩), rfl⟩
        intro values rest parsed
        obtain ⟨nonempty, iterates⟩ := (many_eq_parsed_iff shortens).1 parsed
        cases iterates with
        | stop _ => exact nonempty rfl
        | step first _ => exact rejects _ _ first
    | @step _ _ _ value values first others =>
        have parsed := (many_eq_parsed_iff shortens).2 ⟨List.cons_ne_nil _ _, .step first others⟩
        exact ⟨some (value :: values), optional_eq_parsed_iff.2 (.inl ⟨_, rfl, parsed⟩), rfl⟩

/-- A parser that leaves no more than it was given. -/
def Leaves (parser : Parser α) : Prop :=
  ∀ input value rest, parser input = .parsed value rest → utf8Length rest ≤ utf8Length input

theorem Shortens.leaves {parser : Parser α} (shortens : Shortens parser) : Leaves parser :=
  fun _ _ _ parsed => Nat.le_of_lt (shortens _ _ _ parsed)

theorem leaves_matched (pattern : Pattern) : Leaves (matched pattern) := by
  intro input value rest parsed
  rw [← matched_append_rest parsed, utf8Length_append]
  exact Nat.le_add_left _ _

theorem Leaves.mapValue {parser : Parser α} (leaves : Leaves parser) (change : α → β) :
    Leaves (parser.mapValue change) := by
  intro input value rest parsed
  obtain ⟨_, parsed, -⟩ := mapValue_eq_parsed_iff.1 parsed
  exact leaves _ _ _ parsed

theorem Shortens.mapValue {parser : Parser α} (shortens : Shortens parser) (change : α → β) :
    Shortens (parser.mapValue change) := by
  intro input value rest parsed
  obtain ⟨_, parsed, -⟩ := mapValue_eq_parsed_iff.1 parsed
  exact shortens _ _ _ parsed

theorem Leaves.both {first : Parser α} {second : Parser β} (one : Leaves first) (two : Leaves second) :
    Leaves (both first second) := by
  intro input value rest parsed
  obtain ⟨mid, front, back⟩ := both_eq_parsed_iff.1 parsed
  exact Nat.le_trans (two _ _ _ back) (one _ _ _ front)

theorem Shortens.both {first : Parser α} {second : Parser β} (one : Shortens first) (two : Leaves second) :
    Shortens (both first second) := by
  intro input value rest parsed
  obtain ⟨mid, front, back⟩ := both_eq_parsed_iff.1 parsed
  exact Nat.lt_of_le_of_lt (two _ _ _ back) (one _ _ _ front)

theorem Leaves.optional {parser : Parser α} (leaves : Leaves parser) : Leaves (optional parser) := by
  intro input value rest parsed
  obtain ⟨_, -, parsed⟩ | ⟨-, rfl, -⟩ := optional_eq_parsed_iff.1 parsed
  · exact leaves _ _ _ parsed
  · exact Nat.le_refl _

theorem leaves_either {parsers : List (Parser α)} (each : ∀ parser ∈ parsers, Leaves parser) :
    Leaves (either parsers) := by
  intro input value rest parsed
  obtain ⟨parser, member, accepted⟩ := exists_of_either_eq_parsed parsed
  exact each parser member _ _ _ accepted

theorem shortens_either {parsers : List (Parser α)} (each : ∀ parser ∈ parsers, Shortens parser) :
    Shortens (either parsers) := by
  intro input value rest parsed
  obtain ⟨parser, member, accepted⟩ := exists_of_either_eq_parsed parsed
  exact each parser member _ _ _ accepted

theorem Iterates.leaves {parser : Parser α} (shortens : Shortens parser) {values : List α}
    (iterates : Iterates parser input values rest) : utf8Length rest ≤ utf8Length input := by
  induction iterates with
  | stop _ => exact Nat.le_refl _
  | step parsed _ ih => exact Nat.le_trans ih (Nat.le_of_lt (shortens _ _ _ parsed))

theorem Shortens.many {parser : Parser α} (shortens : Shortens parser) : Shortens (many parser) := by
  intro input values rest parsed
  obtain ⟨nonempty, iterates⟩ := (many_eq_parsed_iff shortens).1 parsed
  cases iterates with
  | stop _ => exact absurd rfl nonempty
  | step first others => exact Nat.lt_of_le_of_lt (others.leaves shortens) (shortens _ _ _ first)

end Parser

end WordMachine.Parsing
