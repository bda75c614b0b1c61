import Packrat.Engine.Primitive

/-!
# Parsing

A parse resets the machine, runs a root procedure over it, and judges what the
procedure leaves behind.  A root that returns true yields a phrase; one that
returns false yields the report of the furthest failure.
-/

namespace Packrat

namespace Machine

variable {Value : Type}

/-- The state in which the root procedure starts. -/
def start (setting : Setting Value) (machine : Machine Value) : Machine Value :=
  (machine.reset setting.capacity).noteEvent
    (.parseStarted setting.source.length setting.capacity.value)

/-- Makes the counters of the tables known. -/
def publishTables (machine : Machine Value) : Machine Value :=
  { machine with
    counters :=
      { machine.counters with
        tables := machine.tables.map fun table => (table.name, table.counters) } }

/-- The phrase of a successful parse: the phrase of the root rule, or all that was
matched when the root procedure did not gather it into one phrase. -/
def rootPhrase (top : Phrase Value) (position : Nat) : Phrase Value :=
  match top.children with
  | [root] => root
  | _ => { top with stop := position, success := true }

/-- The report of a failed parse.  Where nothing was recorded, the cursor is all
that is known. -/
def report? (setting : Setting Value) (top : Phrase Value) (position : Nat) :
    Option ParseError :=
  match top.failure.position with
  | some _ => top.error? setting.source
  | none => ParseError.at? setting.source position []

/-- Judges a machine on which the root procedure has returned. -/
def conclude (setting : Setting Value) (matched : Bool) :
    Run Value (Except ParseError (Phrase Value)) :=
  fun machine =>
    if machine.frames.isEmpty then
      let published := machine.publishTables
      let top := published.top
      let emptied := { published with top := .opened "" "" 0 }
      if matched then
        .finished (.ok (rootPhrase top emptied.position))
          (emptied.noteEvent (.parseSucceeded emptied.position))
      else
        match report? setting top emptied.position with
        | some error =>
            .finished (.error error) (emptied.noteEvent (.parseFailed error.text))
        | none => .faulted .outOfRange emptied
    else .faulted (.phrasesLeftOpen machine.frames.length) machine

def parse (setting : Setting Value) (root : Run Value Bool) :
    Run Value (Except ParseError (Phrase Value)) :=
  fun machine => (root.andThen (conclude setting)) (machine.start setting)

end Machine

end Packrat
