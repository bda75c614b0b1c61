/-!
# Ranges of code points

A character class of the Unicode standard is a list of closed ranges in ascending
order.  The search stops at the first range that starts beyond the code point.
-/

namespace Packrat.Text

/-- The code points from the first number to the second, both included. -/
abbrev CodePointRange := Nat × Nat

def ascendingRangesCover : List CodePointRange → Nat → Bool
  | [], _ => false
  | (first, last) :: rest, codePoint =>
      first ≤ codePoint && (codePoint ≤ last || ascendingRangesCover rest codePoint)

end Packrat.Text
