import Packrat.Engine.Report
import Packrat.Grammar.Evaluation

/-!
# Repeated parses with a grammar
-/

namespace Packrat

namespace Grammar

variable {Value : Type}

/-- Parses a number of times on the same machine. -/
def parseTimes (grammar : Grammar) (setting : Setting Value) (steps : Nat) :
    Nat → Machine Value → Option (List (Report Value))
  | 0, _ => some []
  | times + 1, machine => do
      let (report, after) ←
        Report.ofOutcome? setting.source (Report.verdictOfParse setting.source) 0
          (grammar.parse setting steps machine)
      return report :: (← parseTimes grammar setting steps times after)

def session (grammar : Grammar) (setting : Setting Value) (steps times : Nat) :
    Option (List (Report Value)) :=
  parseTimes grammar setting steps times (grammar.machine setting)

end Grammar

end Packrat
