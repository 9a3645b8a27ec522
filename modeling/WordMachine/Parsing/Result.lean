/-! # Results of parsers

The outcome of a parser on a text: a value and the rest of the text, or a failure, which keeps a rest too.
-/

namespace WordMachine.Parsing

inductive Result (α : Type) where
  /-- A value, and the text behind what was read for it. -/
  | parsed (value : α) (rest : List Char)
  /-- No value; `rest` is the text that the parser could not read. -/
  | failed (rest : List Char)
  deriving Repr, DecidableEq, BEq

namespace Result

variable {α β : Type}

def isFailed : Result α → Bool
  | parsed .. => false
  | failed _ => true

def rest : Result α → List Char
  | parsed _ rest => rest
  | failed rest => rest

def value? : Result α → Option α
  | parsed value _ => some value
  | failed _ => none

def map (change : α → List Char → β × List Char) : Result α → Result β
  | parsed value rest =>
      let (value, rest) := change value rest
      parsed value rest
  | failed rest => failed rest

def mapValue (change : α → β) (result : Result α) : Result β :=
  result.map fun value rest => (change value, rest)

def mapRest (change : List Char → List Char) (result : Result α) : Result α :=
  result.map fun value rest => (value, change rest)

@[simp] theorem isFailed_map (change : α → List Char → β × List Char) (result : Result α) :
    (result.map change).isFailed = result.isFailed := by
  cases result <;> rfl

@[simp] theorem rest_mapValue (change : α → β) (result : Result α) :
    (result.mapValue change).rest = result.rest := by
  cases result <;> rfl

@[simp] theorem value?_mapValue (change : α → β) (result : Result α) :
    (result.mapValue change).value? = result.value?.map change := by
  cases result <;> rfl

end Result

end WordMachine.Parsing
