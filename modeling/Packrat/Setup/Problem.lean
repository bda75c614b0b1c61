/-!
# Problems before a parse

What can go wrong before any input is matched: a memo capacity beyond the limit,
and a source that cannot be read.
-/

namespace Packrat

inductive SetupProblem where
  | capacityOutOfRange (capacity maximum : Nat)
  | unreadableSource (path reason : String)
deriving DecidableEq

def SetupProblem.message : SetupProblem → String
  | .capacityOutOfRange capacity maximum =>
      "memoization capacity " ++ toString capacity ++ " is outside range 0-" ++
        toString maximum
  | .unreadableSource path reason =>
      "failed to read source `" ++ path ++ "`: " ++ reason

end Packrat
