import Packrat.Source.Basic
import Packrat.Text.Escape

/-!
# Terminals

A terminal looks at the characters in front of a position and says how many of
them it takes.  All kinds but the text and the end of the source take exactly one
character.  The kinds come in pairs, each the negation of the other.
-/

namespace Packrat

inductive Terminal where
  | character (wanted : Char)
  | otherCharacter (unwanted : Char)
  | text (wanted : String)
  /-- One character, where the source does not go on with the text. -/
  | otherText (unwanted : String)
  | oneOf (listed : String)
  | noneOf (listed : String)
  | between (first last : Char)
  | outside (first last : Char)
  | anyCharacter
  /-- Matches where no character is left, and takes none. -/
  | endOfText
deriving DecidableEq

namespace Terminal

/-- The position after the given characters, if the source has them from
`position` on. -/
def stopOfText? (source : Source) (position : Nat) : List Char → Option Nat
  | [] => some position
  | wanted :: rest =>
      if source.next? position = some wanted then
        stopOfText? source (position + 1) rest
      else none

def lengthOfText? (source : Source) (position : Nat) (text : String) : Option Nat :=
  (stopOfText? source position text.toList).map fun stop => stop - position

/-- One character, provided that there is one and it passes the test. -/
def lengthOfOne? (source : Source) (position : Nat) (test : Char → Bool) : Option Nat :=
  match source.next? position with
  | some found => if test found then some 1 else none
  | none => none

/-- How many characters the terminal takes at a position, if it matches there. -/
def matchLength? (terminal : Terminal) (source : Source) (position : Nat) : Option Nat :=
  match terminal with
  | .character wanted => lengthOfOne? source position (· == wanted)
  | .otherCharacter unwanted => lengthOfOne? source position (· != unwanted)
  | .text wanted => lengthOfText? source position wanted
  | .otherText unwanted =>
      lengthOfOne? source position fun _ =>
        (lengthOfText? source position unwanted).isNone
  | .oneOf listed => lengthOfOne? source position listed.toList.contains
  | .noneOf listed => lengthOfOne? source position (!listed.toList.contains ·)
  | .between first last =>
      lengthOfOne? source position fun found => first ≤ found && found ≤ last
  | .outside first last =>
      lengthOfOne? source position fun found => found < first || last < found
  | .anyCharacter => lengthOfOne? source position fun _ => true
  | .endOfText => if (source.next? position).isNone then some 0 else none

def negate : Terminal → Terminal
  | .character wanted => .otherCharacter wanted
  | .otherCharacter unwanted => .character unwanted
  | .text wanted => .otherText wanted
  | .otherText unwanted => .text unwanted
  | .oneOf listed => .noneOf listed
  | .noneOf listed => .oneOf listed
  | .between first last => .outside first last
  | .outside first last => .between first last
  | .anyCharacter => .endOfText
  | .endOfText => .anyCharacter

@[simp]
theorem negate_negate (terminal : Terminal) : terminal.negate.negate = terminal := by
  cases terminal <;> rfl

/-- What stands in front of a label for something that must not appear. -/
def negationMark : String := "not "

/-- The label that a report shows where the terminal did not match. -/
def label : Terminal → String
  | .character wanted => "'" ++ Text.characterLabel wanted ++ "'"
  | .otherCharacter unwanted => negationMark ++ "'" ++ Text.characterLabel unwanted ++ "'"
  | .text wanted => "\"" ++ Text.textLabel wanted ++ "\""
  | .otherText unwanted => negationMark ++ "\"" ++ Text.textLabel unwanted ++ "\""
  | .oneOf listed => "[" ++ Text.textLabel listed ++ "]"
  | .noneOf listed => negationMark ++ "[" ++ Text.textLabel listed ++ "]"
  | .between first last =>
      "[" ++ Text.characterLabel first ++ "-" ++ Text.characterLabel last ++ "]"
  | .outside first last =>
      negationMark ++ "[" ++ Text.characterLabel first ++ "-" ++
        Text.characterLabel last ++ "]"
  | .anyCharacter => "any character"
  | .endOfText => "end of text"

end Terminal

end Packrat
