import Packrat.Action.Decimal
import Packrat.Action.Semantics
import Packrat.Action.Value

/-!
# Stock actions

A small stock of actions over `SemanticValue`, enough to evaluate sums, to collect
lists and to look at every part of a phrase.
-/

namespace Packrat

inductive StockAction where
  | leave
  | text
  | number
  | count
  | collect
  | textOfRange (first last : Nat)
  | valueOf (index : Nat)
  /-- The character at an index counted from the start of a child. -/
  | characterOf (index offset : Nat)
  /-- Two values, of which the later one stays. -/
  | replace
  | countOfRule (rule : String)
  /-- Children that alternate between operands and signs, taken from the left. -/
  | sum

namespace StockAction

/-- What does not exist is a fault. -/
def present {Result : Type} : Option Result → Except Fault Result
  | some result => .ok result
  | none => .error .outOfRange

def child (phrase : Phrase SemanticValue) (index : Nat) :
    Except Fault (Phrase SemanticValue) :=
  present phrase.children[index]?

def numberOfText (text : String) : Int64 :=
  (Decimal.word? text).getD 0

def integerOf (phrase : Phrase SemanticValue) : Int64 :=
  match phrase.value with
  | some (.int value) => value
  | _ => 0

/-- The value of a child, or its text when it has no value. -/
def valueOrText (source : Source) (phrase : Phrase SemanticValue) :
    Except Fault SemanticValue :=
  match phrase.value with
  | some value => .ok value
  | none => do return .text (← present (phrase.text? source))

/-- Adds or subtracts the operands behind the given total, each by the sign in
front of it.  A sign without an operand is left alone. -/
def sumFrom (source : Source) (total : Int64) :
    List (Phrase SemanticValue) → Except Fault Int64
  | sign :: operand :: rest => do
      let shown ← present (sign.text? source)
      let number := integerOf operand
      sumFrom source (if shown = "+" then total + number else total - number) rest
  | _ => .ok total

def result (action : StockAction) (source : Source) (phrase : Phrase SemanticValue) :
    Except Fault (Option SemanticValue) := do
  match action with
  | .leave => return none
  | .text => return some (.text (← present (phrase.text? source)))
  | .number => return some (.int (numberOfText (← present (phrase.text? source))))
  | .count => return some (.int (Int64.ofNat phrase.children.length))
  | .collect => return some (.list (← phrase.children.mapM (valueOrText source)))
  | .textOfRange first last =>
      return some (.text (← present (phrase.textOfChildren? source first last)))
  | .valueOf index => return (← child phrase index).value
  | .characterOf index offset =>
      let part ← child phrase index
      let found ← present (part.characterAt? source offset)
      return some (.text (String.singleton found))
  | .replace => return some (.int (-2))
  | .countOfRule rule =>
      return some (.int (Int64.ofNat (phrase.children.countP (·.name == rule))))
  | .sum =>
      let first ← child phrase 0
      return some (.int (← sumFrom source (integerOf first) (phrase.children.drop 1)))

/-- An action may look at the text of every part of its phrase, so a phrase with
an unreadable part has no result. -/
def run (action : StockAction) : Action SemanticValue := fun source phrase =>
  if phrase.isReadable source then action.result source phrase
  else .error .outOfRange

end StockAction

end Packrat
