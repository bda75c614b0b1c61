import Packrat.Source.Basic
import Packrat.Text.Escape

/-!
# Locations in error reports

A position is described by the text just before it, shortened to a window and kept
on one line.
-/

namespace Packrat

namespace Source

/-- How many characters before a position its description quotes. -/
def locationWindow : Nat := 15

/-- Describes a position by what precedes it; absent when the position lies outside
the source. -/
def describe? (source : Source) (position : Nat) : Option String :=
  if locationWindow < position then
    (source.slice? (position - locationWindow) position).map fun shown =>
      "after '..." ++ Text.escapedControls shown ++ "'"
  else if 0 < position then
    (source.slice? 0 position).map fun shown =>
      "after '" ++ Text.escapedControls shown ++ "'"
  else some "at start"

end Source

end Packrat
