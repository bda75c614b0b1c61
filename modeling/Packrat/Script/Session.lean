import Packrat.Engine.Report
import Packrat.Script.Step

/-!
# Sessions of scripts

Several scripts run one after the other on one machine, each as a parse or directly.
A fault ends only the script in which it arises.
-/

namespace Packrat

structure Script where
  steps : List Step
  /-- What the root procedure returns in place of the latest result. -/
  answer : Option Bool
  /-- Whether the steps act on the machine directly, outside a parse. -/
  direct : Bool

namespace Script

variable {Value : Type}

/-- A parse starts a new journal; steps outside a parse go on with the old one. -/
def run (setting : Setting Value) (bound : Nat) (script : Script)
    (machine : Machine Value) : Option (Report Value × Machine Value) :=
  if script.direct then
    Report.ofOutcome? setting.source (fun _ => .unjudged) machine.journal.size
      (evaluateAll setting bound script.steps machine)
  else
    Report.ofOutcome? setting.source (Report.verdictOfParse setting.source) 0
      (Machine.parse setting (root setting bound script.steps script.answer) machine)

def runAll (setting : Setting Value) (bound : Nat) :
    List Script → Machine Value → Option (List (Report Value))
  | [], _ => some []
  | script :: rest, machine => do
      let (report, after) ← run setting bound script machine
      return report :: (← runAll setting bound rest after)

/-- A machine with tables registered in the given order. -/
def session (setting : Setting Value) (bound : Nat) (tables : List (String × String))
    (scripts : List Script) : Option (List (Report Value)) :=
  runAll setting bound scripts
    (tables.foldl (fun machine table => machine.addTable setting table.1 table.2) .initial)

end Script

end Packrat
