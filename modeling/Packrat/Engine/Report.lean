import Packrat.Engine.Parse

/-!
# Reports

What is known after a run: how it ended, where the cursor was left, what was
counted, and what was written down.
-/

namespace Packrat

inductive Verdict (Value : Type) where
  | accepted (phrase : Phrase Value)
  | refused (error : ParseError)
  | faulted (fault : Fault)
  /-- The run was not a parse. -/
  | unjudged

structure Report (Value : Type) where
  verdict : Verdict Value
  position : Nat
  summary : Summary
  entries : List (JournalEntry Value)

namespace Report

variable {Value : Type}

/-- A phrase can be shown only if the text of every part of it can be read. -/
def verdictOfPhrase (source : Source) (phrase : Phrase Value) : Verdict Value :=
  if phrase.isReadable source then .accepted phrase else .faulted .outOfRange

def verdictOfParse (source : Source) :
    Except ParseError (Phrase Value) → Verdict Value
  | .ok phrase => verdictOfPhrase source phrase
  | .error error => .refused error

/-- An action whose phrase cannot be read has nothing to show. -/
def isShown (source : Source) : JournalEntry Value → Bool
  | .action phrase => phrase.isReadable source
  | _ => true

/-- The report on a machine from the entries after the first `mark` ones. -/
def ofMachine (source : Source) (verdict : Verdict Value) (mark : Nat)
    (machine : Machine Value) : Report Value :=
  ⟨verdict, machine.position, machine.summary,
    (machine.journal.entriesAfter mark).filter (isShown source)⟩

/-- The report on a run, and the machine that it leaves behind; nothing is known of a
run that was not allowed enough steps. -/
def ofOutcome? {Result : Type} (source : Source) (verdict : Result → Verdict Value)
    (mark : Nat) : Outcome Value Result → Option (Report Value × Machine Value)
  | .finished result machine =>
      some (ofMachine source (verdict result) mark machine, machine)
  | .faulted fault machine => some (ofMachine source (.faulted fault) mark machine, machine)
  | .exhausted => none

end Report

end Packrat
