import Packrat.Engine.Machine

/-!
# Closing a phrase

An open phrase is closed in one of eight ways.  The way of closing settles the
phrase: where it ends, whether it has matched, what stays recorded as failed.  The
use that the phrase is for then decides what the enclosing phrase takes over from
it.
-/

namespace Packrat

/-- What a closed phrase is to the phrase around it: a part of its own, a carrier of
parts, or a condition. -/
inductive PhraseUse where
  | rule
  | inner
  | predicate
deriving DecidableEq

inductive Closing where
  | accept
  | acceptInner
  | reject
  | rejectInner
  /-- The argument of a predicate that asks for a match has matched. -/
  | acceptAnd
  | rejectAnd
  /-- The argument of a predicate that forbids a match has failed. -/
  | acceptNot
  | rejectNot
deriving DecidableEq

namespace Closing

def use : Closing → PhraseUse
  | .accept | .reject => .rule
  | .acceptInner | .rejectInner => .inner
  | .acceptAnd | .rejectAnd | .acceptNot | .rejectNot => .predicate

def succeeds : Closing → Bool
  | .accept | .acceptInner | .acceptAnd | .acceptNot => true
  | .reject | .rejectInner | .rejectAnd | .rejectNot => false

/-- Whether the closed phrase covers what was matched; otherwise the cursor goes
back to where the phrase starts. -/
def consumes : Closing → Bool
  | .accept | .acceptInner => true
  | _ => false

variable {Value : Type}

/-- What a closed phrase has recorded as failed.  A rejected rule with a label
reports itself when nothing inside it has failed at its start or later.  A predicate
hides what failed inside it, and reports itself where it stands. -/
def failureOf (closing : Closing) (phrase : Phrase Value) : Failure :=
  match closing with
  | .accept | .acceptInner | .rejectInner => phrase.failure
  | .reject =>
      if phrase.failure.reach ≤ phrase.start ∧ phrase.diagnosis ≠ "" then
        .single phrase.diagnosis phrase.start
      else phrase.failure
  | .acceptAnd | .acceptNot => .empty
  | .rejectAnd => .single phrase.diagnosis phrase.start
  | .rejectNot => .single (Terminal.negationMark ++ phrase.diagnosis) phrase.start

/-- The phrase as it is once closed at the cursor.  Only an inner phrase hands on
its children. -/
def settle (closing : Closing) (cursor : Nat) (phrase : Phrase Value) : Phrase Value :=
  { phrase with
    stop := if closing.consumes then cursor else phrase.start
    success := closing.succeeds
    children := if closing = .acceptInner then phrase.children else []
    failure := closing.failureOf phrase }

end Closing

/-- What the enclosing phrase becomes when a closed phrase ends at the cursor. -/
def Phrase.absorb {Value : Type} (phrase : Phrase Value) (use : PhraseUse)
    (part : Phrase Value) (cursor : Nat) : Phrase Value :=
  if part.success then
    match use with
    | .rule => phrase.attach part cursor
    | .inner => phrase.splice part cursor
    | .predicate => phrase
  else phrase.inheritFailure part cursor

end Packrat
