import Mathlib
import WordMachine.Proofs.Parsing.Combinators

/-! # Repetitions end

A repetition applies its parser to a text, then to what is left of it, and so on.  It goes on only while that makes the
text shorter, so it ends on every parser, also on one that leaves a text of its own, and after no more applications
than the text has bytes and one.  A parser may contain repetitions itself: traced parsers report each repetition that
is run for a text, and each of them ends in the same way.
-/

namespace WordMachine.Parsing

namespace Parser

variable {α : Type} {parser : Parser α} {input rest : List Char} {applied : List (List Char)} {values : List α}

/-- A repetition of a parser: the text that it starts on, the texts that the parser is applied to, the values that it
    reads, and the text that is left. -/
inductive Repeats (parser : Parser α) : List Char → List (List Char) → List α → List Char → Prop where
  | failure {input behind : List Char} (failed : parser input = .failed behind) : Repeats parser input [input] [] input
  /-- A success that does not shorten the text counts, and is the last one. -/
  | last {input rest : List Char} {value : α} (parsed : parser input = .parsed value rest)
      (stays : utf8Length input ≤ utf8Length rest) : Repeats parser input [input] [value] rest
  | step {input mid rest : List Char} {applied : List (List Char)} {value : α} {values : List α}
      (parsed : parser input = .parsed value mid) (shorter : utf8Length mid < utf8Length input)
      (others : Repeats parser mid applied values rest) :
      Repeats parser input (input :: applied) (value :: values) rest

namespace Repeats

/-- Every application but the first is to a shorter text than the one before. -/
theorem length_le (repeats : Repeats parser input applied values rest) : applied.length ≤ utf8Length input + 1 := by
  induction repeats with
  | failure _ => exact Nat.le_add_left 1 _
  | last _ _ => exact Nat.le_add_left 1 _
  | step _ shorter _ ih =>
      rw [List.length_cons]
      omega

theorem repeated_eq (repeats : Repeats parser input applied values rest) : repeated parser input = (values, rest) := by
  induction repeats with
  | failure failed =>
      unfold repeated
      simp only [failed]
  | last parsed stays =>
      unfold repeated
      simp only [parsed, if_neg (Nat.not_lt.2 stays)]
  | step parsed shorter _ ih =>
      unfold repeated
      simp only [parsed, if_pos shorter, ih]

/-- What a repetition leaves is a failure only if there is no value. -/
theorem many_eq (repeats : Repeats parser input applied values rest) :
    many parser input = if values = [] then .failed input else .parsed values rest := by
  rw [many, repeats.repeated_eq]
  cases values with
  | nil => rfl
  | cons value values => rfl

theorem isFailed_iff (repeats : Repeats parser input applied values rest) :
    (parser input).isFailed = true ↔ values = [] := by
  cases repeats with
  | failure failed => simp [failed, Result.isFailed]
  | last parsed _ => simp [parsed, Result.isFailed]
  | step parsed _ _ => simp [parsed, Result.isFailed]

end Repeats

end Parser

/-- A repetition that was run: of which parser, from which text on, and the texts that the parser was applied to. -/
structure Repetition where
  {Value : Type}
  parser : Parser Value
  input : List Char
  applied : List (List Char)

/-- The texts that a parser was applied to are those of a repetition. -/
def Repetition.Greedy (repetition : Repetition) : Prop :=
  ∃ values rest, Parser.Repeats repetition.parser repetition.input repetition.applied values rest

/-- What was computed, and the repetitions that were run for it. -/
structure Traced (α : Type) where
  outcome : α
  repetitions : List Repetition

/-- A parser that reports the repetitions that it runs. -/
abbrev Tracer (α : Type) : Type 1 := List Char → Traced (Result α)

namespace Traced

variable {α β : Type}

instance : Monad Traced where
  pure outcome := ⟨outcome, []⟩
  bind run next := ⟨(next run.outcome).outcome, run.repetitions ++ (next run.outcome).repetitions⟩

def report (repetition : Repetition) : Traced Unit := ⟨(), [repetition]⟩

@[simp] theorem outcome_pure (outcome : α) : (pure outcome : Traced α).outcome = outcome := rfl

@[simp] theorem outcome_bind (run : Traced α) (next : α → Traced β) :
    (run >>= next).outcome = (next run.outcome).outcome := rfl

@[simp] theorem repetitions_pure (outcome : α) : (pure outcome : Traced α).repetitions = [] := rfl

@[simp] theorem repetitions_bind (run : Traced α) (next : α → Traced β) :
    (run >>= next).repetitions = run.repetitions ++ (next run.outcome).repetitions := rfl

/-- All repetitions that were run are greedy. -/
def AllGreedy (run : Traced α) : Prop := ∀ repetition ∈ run.repetitions, repetition.Greedy

theorem AllGreedy.pure (outcome : α) : AllGreedy (pure outcome) := List.forall_mem_nil _

theorem AllGreedy.report {repetition : Repetition} (greedy : repetition.Greedy) : AllGreedy (report repetition) :=
  List.forall_mem_singleton.2 greedy

theorem AllGreedy.bind {run : Traced α} {next : α → Traced β} (first : run.AllGreedy)
    (second : (next run.outcome).AllGreedy) : (run >>= next).AllGreedy :=
  List.forall_mem_append.2 ⟨first, second⟩

end Traced

namespace Tracer

variable {α β : Type}

/-- The parser that a tracer reports about. -/
def parser (tracer : Tracer α) : Parser α := fun input => (tracer input).outcome

def ofParser (parser : Parser α) : Tracer α := fun input => pure (parser input)

def map (change : α → List Char → β × List Char) (tracer : Tracer α) : Tracer β := fun input => do
  return (← tracer input).map change

def optional (tracer : Tracer α) : Tracer (Option α) := fun input => do
  match ← tracer input with
  | .parsed value rest => return .parsed (some value) rest
  | .failed _ => return .parsed none input

/-- The texts that a tracer is applied to one after the other, its values, and the text that is left. -/
def repeated (tracer : Tracer α) (input : List Char) : Traced (List (List Char) × List α × List Char) := do
  match ← tracer input with
  | .failed _ => return ([input], [], input)
  | .parsed value rest =>
      if utf8Length rest < utf8Length input then
        let (applied, values, rest) ← repeated tracer rest
        return (input :: applied, value :: values, rest)
      else return ([input], [value], rest)
termination_by utf8Length input

def many (tracer : Tracer α) : Tracer (List α) := fun input => do
  let (applied, values, rest) ← repeated tracer input
  Traced.report ⟨tracer.parser, input, applied⟩
  if values = [] then return .failed input else return .parsed values rest

def either (alternatives : List (Tracer α)) : Tracer α := fun input =>
  match alternatives with
  | [] => return .failed input
  | tracer :: others => do
      match ← tracer input with
      | .parsed value rest => return .parsed value rest
      | .failed _ => either others input

def both (first : Tracer α) (second : Tracer β) : Tracer (α × β) := fun input => do
  match ← first input with
  | .failed _ => return .failed input
  | .parsed a rest =>
      match ← second rest with
      | .failed _ => return .failed input
      | .parsed b rest => return .parsed (a, b) rest

def all (tracers : List (Tracer α)) : Tracer (List α) := fun input =>
  match tracers with
  | [] => return .parsed [] input
  | first :: others => do
      match ← first input with
      | .failed _ => return .failed input
      | .parsed value rest =>
          match ← all others rest with
          | .failed _ => return .failed input
          | .parsed values rest => return .parsed (value :: values) rest

section Outcomes

variable {tracer : Tracer α}

theorem repeats_repeated (input : List Char) :
    Parser.Repeats tracer.parser input (tracer.repeated input).outcome.1 (tracer.repeated input).outcome.2.1
      (tracer.repeated input).outcome.2.2 := by
  induction length : utf8Length input using Nat.strongRecOn generalizing input with
  | ind length ih =>
      subst length
      unfold repeated
      cases outcome : (tracer input).outcome with
      | failed behind =>
          simp only [Traced.outcome_bind, outcome]
          exact .failure outcome
      | parsed value mid =>
          simp only [Traced.outcome_bind, outcome]
          split
          next shorter => exact .step outcome shorter (ih _ shorter mid rfl)
          next longer => exact .last outcome (Nat.not_lt.1 longer)

/-- A parser that reports nothing is repeated without a report. -/
theorem repetitions_repeated_ofParser (parser : Parser α) (input : List Char) :
    (repeated (ofParser parser) input).repetitions = [] := by
  induction length : utf8Length input using Nat.strongRecOn generalizing input with
  | ind length ih =>
      subst length
      unfold repeated
      rw [Traced.repetitions_bind, ofParser, Traced.repetitions_pure, List.nil_append, Traced.outcome_pure]
      cases parser input with
      | failed behind => rfl
      | parsed value mid =>
          simp only []
          split
          next shorter =>
            rw [Traced.repetitions_bind]
            exact List.append_eq_nil_iff.2 ⟨ih _ shorter mid rfl, rfl⟩
          next => rfl

theorem parser_ofParser (parser : Parser α) : (ofParser parser).parser = parser := rfl

theorem parser_optional : (optional tracer).parser = Parser.optional tracer.parser := by
  funext input
  simp only [parser, optional, Parser.optional, Traced.outcome_bind]
  cases (tracer input).outcome <;> rfl

theorem parser_many : (many tracer).parser = Parser.many tracer.parser := by
  funext input
  rw [(repeats_repeated input).many_eq, parser, many]
  simp only [Traced.outcome_bind]
  split <;> rfl

theorem parser_either (alternatives : List (Tracer α)) :
    (either alternatives).parser = Parser.either (alternatives.map parser) := by
  funext input
  induction alternatives with
  | nil => rfl
  | cons tracer others ih =>
      simp only [parser, either, List.map_cons, Parser.either, Traced.outcome_bind]
      cases (tracer input).outcome with
      | parsed value rest => rfl
      | failed rest => exact ih

theorem parser_both (first : Tracer α) (second : Tracer β) :
    (both first second).parser = Parser.both first.parser second.parser := by
  funext input
  simp only [parser, both, Parser.both, Traced.outcome_bind]
  cases (first input).outcome with
  | failed rest => rfl
  | parsed value mid =>
      simp only [Traced.outcome_bind]
      cases (second mid).outcome <;> rfl

theorem parser_all (tracers : List (Tracer α)) : (all tracers).parser = Parser.all (tracers.map parser) := by
  funext input
  induction tracers generalizing input with
  | nil => rfl
  | cons first others ih =>
      simp only [parser, all, List.map_cons, Parser.all, Traced.outcome_bind]
      cases (first input).outcome with
      | failed rest => rfl
      | parsed value mid =>
          simp only [Traced.outcome_bind, ← ih mid, parser]
          cases (all others mid).outcome <;> rfl

end Outcomes

/-- All repetitions that a tracer runs are greedy, whatever the text. -/
def AllGreedy (tracer : Tracer α) : Prop := ∀ input, (tracer input).AllGreedy

section Greedy

variable {tracer : Tracer α}

theorem allGreedy_ofParser (parser : Parser α) : AllGreedy (ofParser parser) := fun _ => .pure _

theorem AllGreedy.map (greedy : AllGreedy tracer) (change : α → List Char → β × List Char) :
    AllGreedy (map change tracer) :=
  fun input => (greedy input).bind (.pure _)

theorem AllGreedy.optional (greedy : AllGreedy tracer) : AllGreedy (optional tracer) := by
  intro input
  refine (greedy input).bind ?_
  cases (tracer input).outcome <;> exact .pure _

theorem AllGreedy.repeated (greedy : AllGreedy tracer) (input : List Char) : (repeated tracer input).AllGreedy := by
  induction length : utf8Length input using Nat.strongRecOn generalizing input with
  | ind length ih =>
      subst length
      unfold Tracer.repeated
      refine (greedy input).bind ?_
      cases (tracer input).outcome with
      | failed behind => exact .pure _
      | parsed value mid =>
          simp only []
          split
          next shorter => exact (ih _ shorter mid rfl).bind (.pure _)
          next => exact .pure _

/-- A repetition adds itself to those that its parser runs. -/
theorem AllGreedy.many (greedy : AllGreedy tracer) : AllGreedy (many tracer) := by
  intro input
  refine (greedy.repeated input).bind (.bind (.report ⟨_, _, repeats_repeated input⟩) ?_)
  split <;> exact .pure _

theorem allGreedy_either {tracers : List (Tracer α)} (each : ∀ tracer ∈ tracers, AllGreedy tracer) :
    AllGreedy (either tracers) := by
  intro input
  induction tracers with
  | nil => exact .pure _
  | cons tracer others ih =>
      obtain ⟨first, next⟩ := List.forall_mem_cons.1 each
      refine (first input).bind ?_
      cases (tracer input).outcome with
      | parsed value rest => exact .pure _
      | failed rest => exact ih next

theorem AllGreedy.both {first : Tracer α} {second : Tracer β} (one : AllGreedy first) (two : AllGreedy second) :
    AllGreedy (both first second) := by
  intro input
  refine (one input).bind ?_
  cases (first input).outcome with
  | failed rest => exact .pure _
  | parsed value mid =>
      refine (two mid).bind ?_
      cases (second mid).outcome <;> exact .pure _

theorem allGreedy_all {tracers : List (Tracer α)} (each : ∀ tracer ∈ tracers, AllGreedy tracer) :
    AllGreedy (all tracers) := by
  induction tracers with
  | nil => exact fun _ => .pure _
  | cons first others ih =>
      obtain ⟨one, next⟩ := List.forall_mem_cons.1 each
      intro input
      refine (one input).bind ?_
      cases (first input).outcome with
      | failed rest => exact .pure _
      | parsed value mid =>
          refine (ih next mid).bind ?_
          cases (all others mid).outcome <;> exact .pure _

end Greedy

end Tracer

/-- How a parser is put together from other parsers, which may be any functions.  What is read and what is left of a
    success may be changed at will. -/
inductive Combination : Type → Type 1 where
  | plain {α : Type} (parser : Parser α) : Combination α
  | map {α β : Type} (change : α → List Char → β × List Char) (inner : Combination α) : Combination β
  | optional {α : Type} (inner : Combination α) : Combination (Option α)
  | many {α : Type} (inner : Combination α) : Combination (List α)
  | either {α : Type} {count : Nat} (alternatives : Fin count → Combination α) : Combination α
  | both {α β : Type} (first : Combination α) (second : Combination β) : Combination (α × β)
  | all {α : Type} {count : Nat} (items : Fin count → Combination α) : Combination (List α)

namespace Combination

def parser {α : Type} : Combination α → Parser α
  | plain parser => parser
  | map change inner => inner.parser.map change
  | optional inner => Parser.optional inner.parser
  | many inner => Parser.many inner.parser
  | either alternatives => Parser.either (List.ofFn fun index => (alternatives index).parser)
  | both first second => Parser.both first.parser second.parser
  | all items => Parser.all (List.ofFn fun index => (items index).parser)

/-- The same parser, which reports the repetitions on all levels. -/
def tracer {α : Type} : Combination α → Tracer α
  | plain parser => .ofParser parser
  | map change inner => inner.tracer.map change
  | optional inner => inner.tracer.optional
  | many inner => inner.tracer.many
  | either alternatives => Tracer.either (List.ofFn fun index => (alternatives index).tracer)
  | both first second => first.tracer.both second.tracer
  | all items => Tracer.all (List.ofFn fun index => (items index).tracer)

theorem parser_tracer {α : Type} (combination : Combination α) : combination.tracer.parser = combination.parser := by
  induction combination with
  | plain parser => rfl
  | map change inner ih =>
      rw [parser, ← ih]
      rfl
  | optional inner ih => rw [tracer, Tracer.parser_optional, ih, parser]
  | many inner ih => rw [tracer, Tracer.parser_many, ih, parser]
  | either alternatives ih =>
      rw [tracer, Tracer.parser_either, List.map_ofFn, parser]
      exact congrArg (fun parsers => Parser.either (List.ofFn parsers)) (funext ih)
  | both first second one two => rw [tracer, Tracer.parser_both, one, two, parser]
  | all items ih =>
      rw [tracer, Tracer.parser_all, List.map_ofFn, parser]
      exact congrArg (fun parsers => Parser.all (List.ofFn parsers)) (funext ih)

theorem allGreedy_tracer {α : Type} (combination : Combination α) : combination.tracer.AllGreedy := by
  induction combination with
  | plain parser => exact Tracer.allGreedy_ofParser parser
  | map change inner ih => exact ih.map change
  | optional inner ih => exact ih.optional
  | many inner ih => exact ih.many
  | either alternatives ih =>
      refine Tracer.allGreedy_either fun tracer member => ?_
      obtain ⟨index, rfl⟩ := List.mem_ofFn.1 member
      exact ih index
  | both first second one two => exact one.both two
  | all items ih =>
      refine Tracer.allGreedy_all fun tracer member => ?_
      obtain ⟨index, rfl⟩ := List.mem_ofFn.1 member
      exact ih index

end Combination

/-- A repetition applies its parser, which may be any function, to a text and then to each text that is left, and keeps
    the values in order.  It ends at the first failure, with the text in front of it, or behind the first success that
    does not shorten the text; it fails, with the text that it started on, if the first application does.  The parser
    is applied no more often than the text has bytes and once, and so it is in every repetition inside of others, for
    the text that this one starts on. -/
theorem many_is_greedy_iteration :
    (∀ {α : Type} (parser : Parser α) (input : List Char), ∃ applied values rest,
      Parser.Repeats parser input applied values rest ∧ applied.length ≤ utf8Length input + 1 ∧
        ((Combination.plain parser).many.tracer input).repetitions = [⟨parser, input, applied⟩] ∧
        Parser.many parser input = (if values = [] then .failed input else .parsed values rest) ∧
        ((Parser.many parser input).isFailed = true ↔ (parser input).isFailed = true)) ∧
    ∀ {α : Type} (combination : Combination α) (input : List Char),
      (combination.tracer input).outcome = combination.parser input ∧
        ∀ repetition ∈ (combination.tracer input).repetitions, ∃ values rest,
          Parser.Repeats repetition.parser repetition.input repetition.applied values rest ∧
            repetition.applied.length ≤ utf8Length repetition.input + 1 := by
  constructor
  · intro α parser input
    have repeats := @Tracer.repeats_repeated α (.ofParser parser) input
    rw [Tracer.parser_ofParser] at repeats
    refine ⟨_, _, _, repeats, repeats.length_le, ?_, repeats.many_eq, ?_⟩
    · rw [Combination.tracer, Combination.tracer, Tracer.many, Traced.repetitions_bind,
        Tracer.repetitions_repeated_ofParser, List.nil_append, Traced.repetitions_bind]
      split <;> rfl
    · rw [repeats.isFailed_iff, repeats.many_eq]
      split
      next none => exact iff_of_true rfl none
      next some => exact iff_of_false Bool.false_ne_true some
  · intro α combination input
    refine ⟨congrFun combination.parser_tracer input, fun repetition member => ?_⟩
    obtain ⟨values, rest, repeats⟩ := combination.allGreedy_tracer input repetition member
    exact ⟨values, rest, repeats, repeats.length_le⟩

/-- Repetitions inside of one, each of which hands back a text that is longer than what it left. -/
def replenishing : Combination (List (List (List Char))) :=
  .many (.map (fun values _ => (values, ['a', 'a', 'a'])) (.many (.plain (Parser.matched (.char 'a')))))

theorem many_is_greedy_iteration_nested :
    replenishing.parser ['a', 'a', 'b'] = .parsed [[['a'], ['a']]] ['a', 'a', 'a'] ∧
      ∃ repetition ∈ (replenishing.tracer ['a', 'a', 'b']).repetitions,
        repetition.applied = [['a', 'a', 'b'], ['a', 'b'], ['b']] ∧ repetition.applied.length ≤ 3 + 1 := by
  obtain ⟨same, bounded⟩ := many_is_greedy_iteration.2 replenishing ['a', 'a', 'b']
  have applied : (replenishing.tracer ['a', 'a', 'b']).repetitions.map Repetition.applied =
      [[['a', 'a', 'b'], ['a', 'b'], ['b']], [['a', 'a', 'b']]] := by cbv
  have starts : (replenishing.tracer ['a', 'a', 'b']).repetitions.map Repetition.input =
      [['a', 'a', 'b'], ['a', 'a', 'b']] := by cbv
  refine ⟨by rw [← same]; cbv, ?_⟩
  cases run : (replenishing.tracer ['a', 'a', 'b']).repetitions with
  | nil =>
      rw [run] at applied
      cases applied
  | cons inner others =>
      rw [run] at applied starts bounded
      obtain ⟨-, -, -, bound⟩ := bounded inner List.mem_cons_self
      rw [(List.cons.inj starts).1] at bound
      exact ⟨inner, List.mem_cons_self, (List.cons.inj applied).1, bound⟩

end WordMachine.Parsing
