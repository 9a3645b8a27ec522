/-! # Patterns

What can be matched at the start of a text.  A pattern says how many characters it matches there, if it
matches at all.  Case is ASCII case only.
-/

namespace WordMachine.Parsing

inductive Pattern where
  | text (expected : List Char)
  | char (expected : Char)
  | noCase (spelling : List Char)
  /-- The longest matching one of several texts, in any case. -/
  | anyNoCase (spellings : List (List Char))
  /-- One character of a class or more, as many as there are. -/
  | takeWhile1 (member : Char → Bool)
  /-- A marker and all behind it up to the end of the line. -/
  | lineComment (marker : Char)

namespace Pattern

def sameLetter (a b : Char) : Bool := a.toLower = b.toLower

def startsNoCase : List Char → List Char → Bool
  | [], _ => true
  | _ :: _, [] => false
  | a :: spelling, b :: input => sameLetter a b && startsNoCase spelling input

def noCaseLength? (spelling input : List Char) : Option Nat :=
  if startsNoCase spelling input then some spelling.length else none

/-- How many characters a pattern matches at the start of a text. -/
def matchLength? (pattern : Pattern) (input : List Char) : Option Nat :=
  match pattern with
  | text expected => if expected.isPrefixOf input then some expected.length else none
  | char expected => if input.head? = some expected then some 1 else none
  | noCase spelling => noCaseLength? spelling input
  | anyNoCase spellings => (spellings.filterMap (noCaseLength? · input)).max?
  | takeWhile1 member =>
      let length := (input.takeWhile member).length
      if length = 0 then none else some length
  -- The line break is left over, also where it is the marker itself.
  | lineComment marker =>
      if input.head? = some marker then some (input.takeWhile (· ≠ '\n')).length else none

theorem noCaseLength?_eq_some_iff {spelling input : List Char} {length : Nat} :
    noCaseLength? spelling input = some length ↔
      startsNoCase spelling input = true ∧ spelling.length = length := by
  simp [noCaseLength?]

end Pattern

end WordMachine.Parsing
