import Mathlib
import WordMachine.Proofs.Parsing.Combinators

/-! # Parsers on related texts

Two texts may be related so that parsers cannot tell them apart: both are read up to related rests, with values that
are related too, or both fail.  Each way of building a parser keeps this, if related texts are of one length.
-/

namespace WordMachine.Parsing

/-- Two results alike: related values and rests, or two failures. -/
inductive Result.Agree {α : Type} (related : List Char → List Char → Prop) (same : α → α → Prop) :
    Result α → Result α → Prop where
  | parsed {value again : α} {rest behind : List Char} (values : same value again) (rests : related rest behind) :
      Result.Agree related same (.parsed value rest) (.parsed again behind)
  | failed {rest behind : List Char} (rests : related rest behind) :
      Result.Agree related same (.failed rest) (.failed behind)

namespace Parser

variable {α β : Type} {related : List Char → List Char → Prop} {same : α → α → Prop} {alike : β → β → Prop}
  {input other : List Char}

/-- A parser that does the same on related texts. -/
def Respects (related : List Char → List Char → Prop) (same : α → α → Prop) (parser : Parser α) : Prop :=
  ∀ ⦃input other⦄, related input other → Result.Agree related same (parser input) (parser other)

theorem Respects.cases {parser : Parser α} (respects : Respects related same parser) (texts : related input other) :
    (∃ value again rest behind, parser input = .parsed value rest ∧ parser other = .parsed again behind ∧
      same value again ∧ related rest behind) ∨
    ∃ rest behind, parser input = .failed rest ∧ parser other = .failed behind ∧ related rest behind := by
  have agree := respects texts
  generalize parser input = result at agree ⊢
  generalize parser other = results at agree ⊢
  cases agree with
  | parsed values rests => exact .inl ⟨_, _, _, _, rfl, rfl, values, rests⟩
  | failed rests => exact .inr ⟨_, _, rfl, rfl, rests⟩

theorem Respects.mapValue {parser : Parser α} (respects : Respects related same parser) {change : α → β}
    (keeps : ∀ ⦃value again⦄, same value again → alike (change value) (change again)) :
    Respects related alike (parser.mapValue change) := by
  intro input other texts
  obtain ⟨value, again, rest, behind, one, two, values, rests⟩ | ⟨rest, behind, one, two, rests⟩ := respects.cases texts
  · rw [Parser.mapValue, Parser.mapValue, one, two]
    exact .parsed (keeps values) rests
  · rw [Parser.mapValue, Parser.mapValue, one, two]
    exact .failed rests

theorem Respects.optional {parser : Parser α} (respects : Respects related same parser) :
    Respects related (Option.Rel same) (optional parser) := by
  intro input other texts
  obtain ⟨value, again, rest, behind, one, two, values, rests⟩ | ⟨rest, behind, one, two, -⟩ := respects.cases texts
  · simp only [Parser.optional, one, two]
    exact .parsed (.some values) rests
  · simp only [Parser.optional, one, two]
    exact .parsed .none texts

theorem respects_either {parsers : List (Parser α)} (each : ∀ parser ∈ parsers, Respects related same parser) :
    Respects related same (either parsers) := by
  intro input other texts
  induction parsers with
  | nil => exact .failed texts
  | cons parser others ih =>
      obtain ⟨first, next⟩ := List.forall_mem_cons.1 each
      obtain ⟨value, again, rest, behind, one, two, values, rests⟩ | ⟨rest, behind, one, two, -⟩ := first.cases texts
      · simp only [either, one, two]
        exact .parsed values rests
      · simp only [either, one, two]
        exact ih next

theorem Respects.both {first : Parser α} {second : Parser β} (front : Respects related same first)
    (back : Respects related alike second) :
    Respects related (fun pair again => same pair.1 again.1 ∧ alike pair.2 again.2) (both first second) := by
  intro input other texts
  obtain ⟨a, c, mid, left, one, two, firsts, mids⟩ | ⟨mid, left, one, two, -⟩ := front.cases texts
  · obtain ⟨b, d, rest, behind, three, four, seconds, rests⟩ | ⟨rest, behind, three, four, -⟩ := back.cases mids
    · simp only [Parser.both, one, two, three, four]
      exact .parsed ⟨firsts, seconds⟩ rests
    · simp only [Parser.both, one, two, three, four]
      exact .failed texts
  · simp only [Parser.both, one, two]
    exact .failed texts

theorem Respects.thenRead {first : Parser α} {second : Parser β} (front : Respects related same first)
    (back : Respects related alike second) : Respects related alike (thenRead first second) :=
  (front.both back).mapValue fun _ _ pairs => pairs.2

theorem Respects.followedBy {first : Parser α} {second : Parser β} (front : Respects related same first)
    (back : Respects related alike second) : Respects related same (followedBy first second) :=
  (front.both back).mapValue fun _ _ pairs => pairs.1

section Many

variable {parser : Parser α} (respects : Respects related same parser)
  (lengths : ∀ ⦃input other⦄, related input other → utf8Length input = utf8Length other)

include respects lengths

/-- The progress that ends a repetition is the same on related texts. -/
theorem Respects.repeated (texts : related input other) :
    List.Forall₂ same (repeated parser input).1 (repeated parser other).1 ∧
      related (repeated parser input).2 (repeated parser other).2 := by
  induction length : utf8Length input using Nat.strongRecOn generalizing input other with
  | ind length ih =>
      subst length
      unfold Parser.repeated
      obtain ⟨value, again, rest, behind, one, two, values, rests⟩ | ⟨rest, behind, one, two, -⟩ := respects.cases texts
      · simp only [one, two, ← lengths texts, ← lengths rests]
        split
        next shorter =>
          obtain ⟨others, ends⟩ := ih _ shorter rests rfl
          exact ⟨.cons values others, ends⟩
        next => exact ⟨.cons values .nil, rests⟩
      · simp only [one, two]
        exact ⟨.nil, texts⟩

theorem Respects.many : Respects related (List.Forall₂ same) (many parser) := by
  intro input other texts
  obtain ⟨values, rests⟩ := respects.repeated lengths texts
  unfold Parser.many
  generalize Parser.repeated parser input = read at values rests ⊢
  generalize Parser.repeated parser other = again at values rests ⊢
  obtain ⟨values', rest⟩ := read
  obtain ⟨again', behind⟩ := again
  cases values with
  | nil => exact .failed texts
  | cons first others => exact .parsed (.cons first others) rests

end Many

end Parser

end WordMachine.Parsing
