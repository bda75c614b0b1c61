import Packrat.Report.ExpectedSet
import Packrat.Report.Failure
import Packrat.Source.Location

/-!
# Parse errors

The report of a failed parse: the furthest position at which something failed,
where that is, and what would have matched there.
-/

namespace Packrat

structure ParseError where
  offset : Nat
  location : String
  expected : ExpectedSet
deriving DecidableEq

namespace ParseError

def text (error : ParseError) : String :=
  error.location ++ ": " ++ error.expected.text

/-- The report at a position, absent when the position lies outside the source. -/
def at? (source : Source) (offset : Nat) (labels : List String) : Option ParseError :=
  (source.describe? offset).map fun location => ⟨offset, location, .ofLabels labels⟩

/-- The report of a failure record, which the empty record does not have. -/
def ofFailure? (source : Source) (failure : Failure) : Option ParseError :=
  failure.position.bind fun offset => at? source offset failure.labels

end ParseError

end Packrat
