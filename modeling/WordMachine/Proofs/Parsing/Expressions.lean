import WordMachine.Proofs.Parsing.Offsets

/-! # Parsers built from patterns

An expression says how a parser is built from patterns, to any depth.  Such a parser leaves the end of the text that it
reads, and the whole text where it fails.  Read by byte offsets it never comes to a place where it would have to cut a
text inside a character.
-/

namespace WordMachine.Parsing

/-- A parser that may get stuck, where a text can not be cut. -/
abbrev Cutter (α : Type) : Type := List Char → Option (Result α)

namespace Cutter

variable {α β : Type}

/-- A parser that never gets stuck. -/
def ofParser (parser : Parser α) : Cutter α := fun input => some (parser input)

def mapValue (change : α → β) (cutter : Cutter α) : Cutter β :=
  fun input => (cutter input).map (Result.mapValue change)

def optional (cutter : Cutter α) : Cutter (Option α) := fun input =>
  match cutter input with
  | none => none
  | some (.parsed value rest) => some (.parsed (some value) rest)
  | some (.failed _) => some (.parsed none input)

def repeated (cutter : Cutter α) (input : List Char) : Option (List α × List Char) :=
  match cutter input with
  | none => none
  | some (.failed _) => some ([], input)
  | some (.parsed value rest) =>
      if utf8Length rest < utf8Length input then
        (repeated cutter rest).map fun (values, rest) => (value :: values, rest)
      else some ([value], rest)
termination_by utf8Length input

def many (cutter : Cutter α) : Cutter (List α) := fun input =>
  match repeated cutter input with
  | none => none
  | some ([], _) => some (.failed input)
  | some (values, rest) => some (.parsed values rest)

def either (alternatives : List (Cutter α)) : Cutter α := fun input =>
  match alternatives with
  | [] => some (.failed input)
  | cutter :: others =>
      match cutter input with
      | none => none
      | some (.parsed value rest) => some (.parsed value rest)
      | some (.failed _) => either others input

def both (first : Cutter α) (second : Cutter β) : Cutter (α × β) := fun input =>
  match first input with
  | none => none
  | some (.failed _) => some (.failed input)
  | some (.parsed a rest) =>
      match second rest with
      | none => none
      | some (.failed _) => some (.failed input)
      | some (.parsed b rest) => some (.parsed (a, b) rest)

def all (cutters : List (Cutter α)) : Cutter (List α) := fun input =>
  match cutters with
  | [] => some (.parsed [] input)
  | first :: others =>
      match first input with
      | none => none
      | some (.failed _) => some (.failed input)
      | some (.parsed value rest) =>
          match all others rest with
          | none => none
          | some (.failed _) => some (.failed input)
          | some (.parsed values rest) => some (.parsed (value :: values) rest)

theorem mapValue_ofParser (change : α → β) (parser : Parser α) :
    mapValue change (ofParser parser) = ofParser (parser.mapValue change) := rfl

theorem optional_ofParser (parser : Parser α) : optional (ofParser parser) = ofParser (Parser.optional parser) := by
  funext input
  simp only [optional, ofParser, Parser.optional]
  cases parser input <;> rfl

theorem repeated_ofParser (parser : Parser α) (input : List Char) :
    repeated (ofParser parser) input = some (Parser.repeated parser input) := by
  fun_induction Parser.repeated parser input with
  | case1 input rest failed =>
      unfold repeated
      simp [ofParser, failed]
  | case2 input value rest parsed shorter values behind others ih =>
      unfold repeated
      simp [ofParser, parsed, shorter, ih, others]
  | case3 input value rest parsed longer =>
      unfold repeated
      simp [ofParser, parsed, longer]

theorem many_ofParser (parser : Parser α) : many (ofParser parser) = ofParser (Parser.many parser) := by
  funext input
  simp only [many, repeated_ofParser, ofParser, Parser.many]
  cases Parser.repeated parser input with
  | mk values rest => cases values <;> rfl

theorem either_ofParser (parsers : List (Parser α)) :
    either (parsers.map ofParser) = ofParser (Parser.either parsers) := by
  funext input
  induction parsers with
  | nil => rfl
  | cons parser others ih =>
      rw [List.map_cons, either, ofParser, ofParser, Parser.either]
      cases parser input with
      | parsed value rest => rfl
      | failed rest => exact ih

theorem both_ofParser (first : Parser α) (second : Parser β) :
    both (ofParser first) (ofParser second) = ofParser (Parser.both first second) := by
  funext input
  simp only [both, ofParser, Parser.both]
  cases first input with
  | failed rest => rfl
  | parsed value rest =>
      simp only []
      cases second rest <;> rfl

theorem all_ofParser (parsers : List (Parser α)) : all (parsers.map ofParser) = ofParser (Parser.all parsers) := by
  funext input
  induction parsers generalizing input with
  | nil => rfl
  | cons parser others ih =>
      rw [List.map_cons, all, ofParser, ofParser, Parser.all]
      cases parser input with
      | failed rest => rfl
      | parsed value rest =>
          simp only [ih, ofParser]
          cases Parser.all others rest <;> rfl

end Cutter

namespace Parser

variable {α β : Type}

/-- A parser that leaves an end of the text, which is the whole text where it fails. -/
structure Restores (parser : Parser α) : Prop where
  failed : ∀ {input rest}, parser input = .failed rest → rest = input
  parsed : ∀ {input value rest}, parser input = .parsed value rest → rest <:+ input

theorem restores_matched (pattern : Pattern) : Restores (matched pattern) where
  failed {input rest} failed := by
    unfold matched at failed
    split at failed
    · cases failed
    · cases failed
      rfl
  parsed {input value rest} parsed := ⟨value, matched_append_rest parsed⟩

theorem Restores.mapValue {parser : Parser α} (restores : Restores parser) (change : α → β) :
    Restores (parser.mapValue change) where
  failed {input rest} failed := by
    unfold Parser.mapValue at failed
    cases result : parser input with
    | parsed value behind =>
        rw [result] at failed
        cases failed
    | failed behind =>
        rw [result] at failed
        cases failed
        exact restores.failed result
  parsed {input value rest} parsed := by
    obtain ⟨before, read, -⟩ := mapValue_eq_parsed_iff.1 parsed
    exact restores.parsed read

theorem Restores.optional {parser : Parser α} (restores : Restores parser) : Restores (optional parser) where
  failed {input rest} failed := by
    unfold Parser.optional at failed
    split at failed <;> cases failed
  parsed {input value rest} parsed := by
    obtain ⟨inner, -, read⟩ | ⟨-, rfl, -⟩ := optional_eq_parsed_iff.1 parsed
    · exact restores.parsed read
    · exact List.suffix_rfl

theorem Restores.repeated {parser : Parser α} (restores : Restores parser) (input : List Char) :
    (repeated parser input).2 <:+ input := by
  fun_induction Parser.repeated parser input with
  | case1 input rest failed => exact List.suffix_rfl
  | case2 input value rest parsed shorter values behind others ih =>
      rw [others] at ih
      exact ih.trans (restores.parsed parsed)
  | case3 input value rest parsed longer => exact restores.parsed parsed

theorem Restores.many {parser : Parser α} (restores : Restores parser) : Restores (many parser) where
  failed {input rest} failed := by
    unfold Parser.many at failed
    split at failed
    · cases failed
      rfl
    · cases failed
  parsed {input value rest} parsed := by
    have suffix := restores.repeated input
    unfold Parser.many at parsed
    split at parsed
    next => cases parsed
    next values behind _ read =>
      cases parsed
      rwa [read] at suffix

theorem restores_either {parsers : List (Parser α)} (each : ∀ parser ∈ parsers, Restores parser) :
    Restores (either parsers) where
  failed {input rest} failed := by
    have restored : either parsers input = .failed input := rest_of_either_failed (by rw [failed]; rfl)
    rw [failed] at restored
    cases restored
    rfl
  parsed {input value rest} parsed := by
    obtain ⟨parser, member, read⟩ := exists_of_either_eq_parsed parsed
    exact (each parser member).parsed read

theorem Restores.both {first : Parser α} {second : Parser β} (one : Restores first) (two : Restores second) :
    Restores (both first second) where
  failed {input rest} failed := by
    have restored : Parser.both first second input = .failed input := rest_of_both_failed (by rw [failed]; rfl)
    rw [failed] at restored
    cases restored
    rfl
  parsed {input pair rest} parsed := by
    obtain ⟨mid, front, back⟩ := both_eq_parsed_iff.1 parsed
    exact (two.parsed back).trans (one.parsed front)

theorem restores_all {parsers : List (Parser α)} (each : ∀ parser ∈ parsers, Restores parser) :
    Restores (all parsers) := by
  induction parsers with
  | nil =>
      constructor
      · intro input rest failed
        cases failed
      · intro input values rest parsed
        cases parsed
        exact List.suffix_rfl
  | cons parser others ih =>
      obtain ⟨first, behind⟩ := List.forall_mem_cons.1 each
      constructor
      · intro input rest failed
        unfold all at failed
        split at failed
        · cases failed
          rfl
        · split at failed
          · cases failed
            rfl
          · cases failed
      · intro input values rest parsed
        unfold all at parsed
        split at parsed
        · cases parsed
        next value mid read =>
        split at parsed
        · cases parsed
        next values left more =>
        cases parsed
        exact ((ih behind).parsed more).trans (first.parsed read)

end Parser

/-- How a parser is built from patterns. -/
inductive Expression : Type → Type 1 where
  | matched (pattern : Pattern) : Expression (List Char)
  | matchedAs {α : Type} (pattern : Pattern) (value : α) : Expression α
  | mapValue {α β : Type} (change : α → β) (inner : Expression α) : Expression β
  | optional {α : Type} (inner : Expression α) : Expression (Option α)
  | many {α : Type} (inner : Expression α) : Expression (List α)
  | either {α : Type} {count : Nat} (alternatives : Fin count → Expression α) : Expression α
  | both {α β : Type} (first : Expression α) (second : Expression β) : Expression (α × β)
  | all {α : Type} {count : Nat} (items : Fin count → Expression α) : Expression (List α)

namespace Expression

/-- The parser that an expression says how to build. -/
def parser {α : Type} : Expression α → Parser α
  | matched pattern => Parser.matched pattern
  | matchedAs pattern value => Parser.matchedAs pattern value
  | mapValue change inner => inner.parser.mapValue change
  | optional inner => Parser.optional inner.parser
  | many inner => Parser.many inner.parser
  | either alternatives => Parser.either (List.ofFn fun index => (alternatives index).parser)
  | both first second => Parser.both first.parser second.parser
  | all items => Parser.all (List.ofFn fun index => (items index).parser)

/-- The same parser with matches that cut the text at byte offsets. -/
def cutter {α : Type} : Expression α → Cutter α
  | matched pattern => matchedAt? pattern
  | matchedAs pattern value => Cutter.mapValue (fun _ => value) (matchedAt? pattern)
  | mapValue change inner => inner.cutter.mapValue change
  | optional inner => inner.cutter.optional
  | many inner => inner.cutter.many
  | either alternatives => Cutter.either (List.ofFn fun index => (alternatives index).cutter)
  | both first second => first.cutter.both second.cutter
  | all items => Cutter.all (List.ofFn fun index => (items index).cutter)

theorem cutter_eq {α : Type} (expression : Expression α) : expression.cutter = .ofParser expression.parser := by
  induction expression with
  | matched pattern => exact funext (matchedAt?_eq pattern)
  | matchedAs pattern value =>
      rw [cutter, parser, Parser.matchedAs, ← Cutter.mapValue_ofParser]
      exact congrArg (Cutter.mapValue _) (funext (matchedAt?_eq pattern))
  | mapValue change inner ih => rw [cutter, ih, Cutter.mapValue_ofParser, parser]
  | optional inner ih => rw [cutter, ih, Cutter.optional_ofParser, parser]
  | many inner ih => rw [cutter, ih, Cutter.many_ofParser, parser]
  | either alternatives ih =>
      rw [cutter, parser, ← Cutter.either_ofParser, List.map_ofFn]
      exact congrArg (fun cutters => Cutter.either (List.ofFn cutters)) (funext ih)
  | both first second one two => rw [cutter, one, two, Cutter.both_ofParser, parser]
  | all items ih =>
      rw [cutter, parser, ← Cutter.all_ofParser, List.map_ofFn]
      exact congrArg (fun cutters => Cutter.all (List.ofFn cutters)) (funext ih)

theorem restores {α : Type} (expression : Expression α) : expression.parser.Restores := by
  induction expression with
  | matched pattern => exact Parser.restores_matched pattern
  | matchedAs pattern value => exact (Parser.restores_matched pattern).mapValue _
  | mapValue change inner ih => exact ih.mapValue change
  | optional inner ih => exact ih.optional
  | many inner ih => exact ih.many
  | either alternatives ih =>
      refine Parser.restores_either fun parser member => ?_
      obtain ⟨index, rfl⟩ := List.mem_ofFn.1 member
      exact ih index
  | both first second one two => exact one.both two
  | all items ih =>
      refine Parser.restores_all fun parser member => ?_
      obtain ⟨index, rfl⟩ := List.mem_ofFn.1 member
      exact ih index

end Expression

/-- A parser that is built from patterns never cuts a text inside a character.  What it leaves is an end of the text
    that starts between two characters, and the whole text where it fails; what a match reads stands in front of what
    it leaves. -/
theorem built_parsers_backtrack {α : Type} (expression : Expression α) (input : List Char) :
    expression.cutter input = some (expression.parser input) ∧
      ((expression.parser input).rest <:+ input ∧
        String.Pos.Raw.IsValid (String.ofList input) ⟨utf8Length input - utf8Length (expression.parser input).rest⟩) ∧
      (∀ rest, expression.parser input = .failed rest → rest = input) ∧
      ∀ pattern value rest, Parser.matched pattern input = .parsed value rest → value ++ rest = input := by
  have restores := expression.restores
  have suffix : (expression.parser input).rest <:+ input := by
    cases result : expression.parser input with
    | parsed value rest => exact restores.parsed result
    | failed rest => exact restores.failed result ▸ List.suffix_rfl
  obtain ⟨-, front, cut⟩ := cut?_of_suffix suffix
  have cuts : expression.cutter input = some (expression.parser input) := by
    rw [expression.cutter_eq]
    rfl
  exact ⟨cuts, ⟨suffix, exists_cut?_iff.1 ⟨_, cut⟩⟩, fun rest => restores.failed,
    fun pattern value rest => Parser.matched_append_rest⟩

/-- A word that would end inside a character is not there. -/
example : matchedAt? (.noCase ['a', 'b']) ['A', 'é'] = some (.failed ['A', 'é']) := by decide

end WordMachine.Parsing
