import WordMachine.Parsing.Pattern
import WordMachine.Parsing.Result

/-! # Backtracking parsers

A parser is a function from a text to a result.  Alternatives and sequences start again from the same text
after a failure, and fail with that text as their rest.

`matched_append_rest` says that a match splits the text; `many` stops as soon as a success does not shorten
the text, so it ends on every parser.
-/

namespace WordMachine.Parsing

/-- A reader of the start of a text. -/
def Parser (α : Type) : Type := List Char → Result α

def utf8Length (text : List Char) : Nat :=
  text.foldl (fun length c => length + c.utf8Size) 0

@[simp] theorem utf8Length_nil : utf8Length [] = 0 := rfl

theorem utf8Length_append (front back : List Char) :
    utf8Length (front ++ back) = utf8Length front + utf8Length back := by
  have shift : ∀ (text : List Char) (start : Nat),
      text.foldl (fun length c => length + c.utf8Size) start = start + utf8Length text := by
    intro text
    induction text with
    | nil => simp
    | cons c text ih => intro start; rw [utf8Length, List.foldl_cons, List.foldl_cons, ih, ih]; omega
  rw [utf8Length, List.foldl_append, shift]
  rfl

namespace Parser

variable {α β : Type}

def failing : Parser α := fun input => .failed input

instance : Inhabited (Parser α) := ⟨failing⟩

def map (change : α → List Char → β × List Char) (parser : Parser α) : Parser β :=
  fun input => (parser input).map change

def mapValue (change : α → β) (parser : Parser α) : Parser β :=
  fun input => (parser input).mapValue change

def mapRest (change : List Char → List Char) (parser : Parser α) : Parser α :=
  fun input => (parser input).mapRest change

def matched (pattern : Pattern) : Parser (List Char) := fun input =>
  match pattern.matchLength? input with
  | some length => .parsed (input.take length) (input.drop length)
  | none => .failed input

/-- A fixed value in place of the text that a pattern matches. -/
def matchedAs (pattern : Pattern) (value : α) : Parser α :=
  (matched pattern).mapValue fun _ => value

/-- Always succeeds: where a parser fails there is no value and nothing is read. -/
def optional (parser : Parser α) : Parser (Option α) := fun input =>
  match parser input with
  | .parsed value rest => .parsed (some value) rest
  | .failed _ => .parsed none input

/-- The values of a parser applied again and again, and the text that is left.  It ends where the parser
    fails, or behind a success that does not shorten the text. -/
def repeated (parser : Parser α) (input : List Char) : List α × List Char :=
  match parser input with
  | .failed _ => ([], input)
  | .parsed value rest =>
      -- A success that reads nothing would repeat forever.
      if utf8Length rest < utf8Length input then
        let (values, rest) := repeated parser rest
        (value :: values, rest)
      else ([value], rest)
termination_by utf8Length input

/-- The values of a parser applied again and again, at least one. -/
def many (parser : Parser α) : Parser (List α) := fun input =>
  match repeated parser input with
  | ([], _) => .failed input
  | (values, rest) => .parsed values rest

/-- The first of some parsers that succeeds. -/
def either (alternatives : List (Parser α)) : Parser α := fun input =>
  match alternatives with
  | [] => .failed input
  | parser :: others =>
      match parser input with
      | .parsed value rest => .parsed value rest
      | .failed _ => either others input

def both (first : Parser α) (second : Parser β) : Parser (α × β) := fun input =>
  match first input with
  | .failed _ => .failed input
  | .parsed a rest =>
      match second rest with
      | .failed _ => .failed input
      | .parsed b rest => .parsed (a, b) rest

def all (parsers : List (Parser α)) : Parser (List α) := fun input =>
  match parsers with
  | [] => .parsed [] input
  | first :: others =>
      match first input with
      | .failed _ => .failed input
      | .parsed value rest =>
          match all others rest with
          | .failed _ => .failed input
          | .parsed values rest => .parsed (value :: values) rest

/-- The first value of two parsers one after the other. -/
def followedBy (first : Parser α) (second : Parser β) : Parser α :=
  (both first second).mapValue Prod.fst

/-- The second value of two parsers one after the other. -/
def thenRead (first : Parser α) (second : Parser β) : Parser β :=
  (both first second).mapValue Prod.snd

theorem matched_append_rest {pattern : Pattern} {input value rest : List Char}
    (success : matched pattern input = .parsed value rest) : value ++ rest = input := by
  unfold matched at success
  split at success
  · simp only [Result.parsed.injEq] at success
    rw [← success.1, ← success.2, List.take_append_drop]
  · simp at success

theorem rest_of_either_failed {alternatives : List (Parser α)} {input : List Char}
    (failure : (either alternatives input).isFailed = true) : either alternatives input = .failed input := by
  induction alternatives with
  | nil => rfl
  | cons parser others ih =>
      unfold either at failure ⊢
      split <;> simp_all [Result.isFailed]

theorem rest_of_both_failed {first : Parser α} {second : Parser β} {input : List Char}
    (failure : (both first second input).isFailed = true) : both first second input = .failed input := by
  unfold both at failure ⊢
  split
  · rfl
  · split <;> simp_all [Result.isFailed]

end Parser

end WordMachine.Parsing
