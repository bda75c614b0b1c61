import Packrat.Text.GraphemeExtend
import Packrat.Text.Unprintable

/-!
# Escaped text

Labels, locations and quoted names are read on one line of a terminal, so a
character that would break the line, hide, or melt into its neighbour is written
as an escape: a backslash and a letter for the few that have one, and otherwise
the code point in hexadecimal between braces.  Which drawable characters are
escaped as well is a matter of the surrounding quotation, and is said once in an
`EscapeStyle`.
-/

namespace Packrat.Text

/-- The drawable characters that a quotation escapes. -/
structure EscapeStyle where
  singleQuote : Bool
  doubleQuote : Bool
  graphemeExtend : Bool
deriving DecidableEq

/-- Terminals are labelled between quotes of either kind. -/
def EscapeStyle.label : EscapeStyle := ⟨true, true, true⟩

/-- Inside a label an extending character has a neighbour to rest on. -/
def EscapeStyle.labelRest : EscapeStyle := ⟨true, true, false⟩

/-- Names and values are quoted between double quotes. -/
def EscapeStyle.quotation : EscapeStyle := ⟨false, true, true⟩

/-- The code point in lower-case hexadecimal without leading zeros. -/
def escapedCodePoint (character : Char) : List Char :=
  ['\\', 'u', '\x7b'] ++ Nat.toDigits 16 character.toNat ++ ['\x7d']

def escapedCharacter (style : EscapeStyle) (character : Char) : List Char :=
  match character with
  | '\x00' => ['\\', '0']
  | '\t' => ['\\', 't']
  | '\r' => ['\\', 'r']
  | '\n' => ['\\', 'n']
  | '\\' => ['\\', '\\']
  | '\'' => if style.singleQuote then ['\\', '\''] else ['\'']
  | '"' => if style.doubleQuote then ['\\', '"'] else ['"']
  | _ =>
      if style.graphemeExtend && extendsGrapheme character then
        escapedCodePoint character
      else if isPrintable character then [character]
      else escapedCodePoint character

/-- A character on its own, as it stands in a label. -/
def characterLabel (character : Char) : String :=
  String.ofList (escapedCharacter .label character)

/-- Only the first character of a labelled text is without a neighbour. -/
def escapedLabel : List Char → List Char
  | [] => []
  | first :: rest =>
      escapedCharacter .label first ++ rest.flatMap (escapedCharacter .labelRest)

def textLabel (text : String) : String :=
  String.ofList (escapedLabel text.toList)

/-- The text between double quotes. -/
def quoted (text : String) : String :=
  String.ofList ('"' :: text.toList.flatMap (escapedCharacter .quotation) ++ ['"'])

/-- Replaces the control characters of a text and leaves every other one. -/
def escapedControls (text : String) : String :=
  String.ofList (text.toList.flatMap fun character =>
    if isControl character then escapedCharacter .label character else [character])

end Packrat.Text
