import Packrat.Report.ParseError

/-!
# Phrases

A phrase is a matched or attempted grammar expression over a span of the source.
Rules have names; terminals and inner expressions have none.  While a phrase is
open its children are the parts matched so far.
-/

namespace Packrat

structure Phrase (Value : Type) where
  name : String
  /-- The label under which the phrase itself is reported. -/
  diagnosis : String
  start : Nat
  stop : Nat
  success : Bool
  children : List (Phrase Value)
  value : Option Value
  failure : Failure

namespace Phrase

variable {Value : Type}

/-- A phrase that has matched nothing yet. -/
def opened (name diagnosis : String) (start : Nat) : Phrase Value :=
  ⟨name, diagnosis, start, start, false, [], none, .empty⟩

def ofTerminal (start stop : Nat) : Phrase Value :=
  ⟨"", "", start, stop, true, [], none, .empty⟩

def isInner (phrase : Phrase Value) : Bool :=
  phrase.name.isEmpty

/-- The name that a record of the parse shows: an inner phrase goes by its
diagnosis. -/
def title (phrase : Phrase Value) : String :=
  if phrase.isInner then phrase.diagnosis else phrase.name

def isEmpty (phrase : Phrase Value) : Bool :=
  phrase.start == phrase.stop

def text? (phrase : Phrase Value) (source : Source) : Option String :=
  source.slice? phrase.start phrase.stop

/-- The character at an index counted from the start of the phrase.  Positions are
words of 64 bits, so a count beyond the last word starts again at zero. -/
def characterAt? (phrase : Phrase Value) (source : Source) (index : Nat) : Option Char :=
  source.codePointAt? ((phrase.start + index) % UInt64.size)

/-- The text from the start of one child to the end of the child before another,
which is empty when there is no child in between. -/
def textOfChildren? (phrase : Phrase Value) (source : Source) (first last : Nat) :
    Option String :=
  if last ≤ first then some ""
  else do
    let leftmost ← phrase.children[first]?
    let rightmost ← phrase.children[last - 1]?
    source.slice? leftmost.start rightmost.stop

/-- The report of the failures inside this phrase alone. -/
def error? (phrase : Phrase Value) (source : Source) : Option ParseError :=
  ParseError.ofFailure? source phrase.failure

/-- Adds a part that ends at the cursor. -/
def attach (phrase part : Phrase Value) (cursor : Nat) : Phrase Value :=
  { phrase with
    stop := cursor
    children := phrase.children ++ [part]
    failure := phrase.failure.merge part.failure cursor }

/-- Takes over the children of an inner part that ends at the cursor. -/
def splice (phrase part : Phrase Value) (cursor : Nat) : Phrase Value :=
  { phrase with
    stop := cursor
    children := phrase.children ++ part.children
    failure := phrase.failure.merge part.failure cursor }

/-- Takes over what a part has recorded as failed. -/
def inheritFailure (phrase part : Phrase Value) (cursor : Nat) : Phrase Value :=
  { phrase with failure := phrase.failure.merge part.failure cursor }

mutual

/-- Whether the text of the phrase, and of each phrase below it, lies inside the
source. -/
def isReadable (source : Source) : Phrase Value → Bool
  | ⟨_, _, start, stop, _, children, _, _⟩ =>
      (source.slice? start stop).isSome && areReadable source children

def areReadable (source : Source) : List (Phrase Value) → Bool
  | [] => true
  | phrase :: rest => isReadable source phrase && areReadable source rest

end

end Phrase

end Packrat
