import Packrat.Engine.Parse

/-!
# Scripts

A script calls the primitives in an order of its own, balanced or not, and remarks
after each one what it returned and where the cursor is.  Conditions and loops
depend on what a step returns.
-/

namespace Packrat

inductive Step where
  | perform (primitive : Primitive)
  /-- Remarks where the cursor is. -/
  | position
  /-- Remarks the counters. -/
  | summary
  | choose (condition : Step) (yes no : List Step)
  | repeatWhile (condition : Step) (body : List Step)
  | repeatTimes (count : Nat) (body : List Step)

namespace Script

variable {Value : Type}

/-- Remarks the result of a step. -/
def remark (result : Option Bool) : Run Value (Option Bool) :=
  fun machine => .finished result (machine.note (.step result machine.position))

mutual

/-- The result of a step.  Only primitives have one. -/
def evaluate (setting : Setting Value) : Nat → Step → Run Value (Option Bool)
  | 0, _ => .exhausted
  | _ + 1, .perform primitive => (Machine.perform setting primitive).andThen remark
  | _ + 1, .position => remark none
  | _ + 1, .summary =>
      fun machine => .finished none (machine.note (.summary machine.summary))
  | steps + 1, .choose condition yes no =>
      (evaluate setting steps condition).andThen fun result =>
        if result.getD true then evaluateAll setting steps yes
        else evaluateAll setting steps no
  | steps + 1, .repeatWhile condition body =>
      (evaluate setting steps condition).andThen fun result =>
        if result.getD true then
          (evaluateAll setting steps body).andThen fun _ =>
            evaluate setting steps (.repeatWhile condition body)
        else .done none
  | _ + 1, .repeatTimes 0 _ => .done none
  | steps + 1, .repeatTimes (count + 1) body =>
      (evaluateAll setting steps body).andThen fun _ =>
        evaluate setting steps (.repeatTimes count body)

def evaluateAll (setting : Setting Value) : Nat → List Step → Run Value (Option Bool)
  | 0, _ => .exhausted
  | _ + 1, [] => .done none
  | steps + 1, step :: rest =>
      (evaluate setting steps step).andThen fun _ => evaluateAll setting steps rest

end

end Script

/-- The latest result among the remarks of a script. -/
def Journal.latestResult? {Value : Type} (journal : Journal Value) : Option Bool :=
  journal.newestFirst.findSome? fun entry =>
    match entry with
    | .step result _ => result
    | _ => none

namespace Script

variable {Value : Type}

/-- Runs the steps as a root procedure, which returns the given answer, or else the
latest result of a step. -/
def root (setting : Setting Value) (bound : Nat) (steps : List Step)
    (answer : Option Bool) : Run Value Bool :=
  (evaluateAll setting bound steps).andThen fun _ =>
    Run.look fun machine => answer.getD (machine.journal.latestResult?.getD false)

end Script

end Packrat
