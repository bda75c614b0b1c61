/-!
# Faults

A fault ends a run at once.  The first three are breaches of the calling order of
the primitives; the last is a look at something that is not there, such as a
table, a child or a stretch of text.
-/

namespace Packrat

inductive Fault where
  | noOpenPhrase
  | nothingToReuse
  | phrasesLeftOpen (count : Nat)
  | outOfRange
deriving DecidableEq

def Fault.message? : Fault → Option String
  | .noOpenPhrase =>
      some "no open phrase to close: begin and accept/reject calls are unbalanced"
  | .nothingToReuse => some "reuse called without a preceding cache hit"
  | .phrasesLeftOpen count =>
      some ("root procedure returned with " ++ toString count ++ " phrase(s) still open")
  | .outOfRange => none

end Packrat
