import Packrat.Engine.Counters

/-!
# Journals

A journal is everything that a run writes down, in order: the events of the parse,
the phrases handed to actions, and the remarks of whoever drives the parse.  It
keeps its newest entry first.
-/

namespace Packrat

inductive EventLevel where
  | debug
  | trace
deriving DecidableEq

def EventLevel.name : EventLevel → String
  | .debug => "DEBUG"
  | .trace => "TRACE"

inductive Event where
  | parseStarted (length capacity : Nat)
  | parseSucceeded (stop : Nat)
  | parseFailed (report : String)
  | opened (title : String) (inner : Bool) (start : Nat)
  | closed (title : String) (inner : Bool) (start stop : Nat) (success : Bool)
  | failureRecorded (label : String) (position : Nat)
  | resultReused (table : String) (position : Nat) (success : Bool)
  /-- A rule was tried at the position where it is still open. -/
  | leftRecursion (table : String) (position : Nat)
  | resultEvicted (table : String) (evicted position : Nat)
deriving DecidableEq

/-- What an event says under the name of a field. -/
inductive EventDetail where
  | number (value : Nat)
  | text (content : String)
  | flag (holds : Bool)
deriving DecidableEq

namespace Event

def level : Event → EventLevel
  | .opened .. | .closed .. | .failureRecorded .. => .trace
  | _ => .debug

def message : Event → String
  | .parseStarted .. => "parse started"
  | .parseSucceeded .. => "parse succeeded"
  | .parseFailed .. => "parse failed"
  | .opened .. => "begin"
  | .closed .. => "closed"
  | .failureRecorded .. => "failure recorded"
  | .resultReused .. => "reusing saved result"
  | .leftRecursion .. => "re-entered before finishing; left recursion fails here"
  | .resultEvicted .. => "cache slot reused"

def details : Event → List (String × EventDetail)
  | .parseStarted length capacity => [("length", .number length), ("memo", .number capacity)]
  | .parseSucceeded stop => [("end", .number stop)]
  | .parseFailed report => [("error", .text report)]
  | .opened title inner start =>
      [("rule", .text title), ("inner", .flag inner), ("start", .number start)]
  | .closed title inner start stop success =>
      [("rule", .text title), ("inner", .flag inner), ("start", .number start),
        ("end", .number stop), ("success", .flag success)]
  | .failureRecorded label position =>
      [("label", .text label), ("pos", .number position)]
  | .resultReused table position success =>
      [("cache", .text table), ("pos", .number position), ("success", .flag success)]
  | .leftRecursion table position => [("cache", .text table), ("pos", .number position)]
  | .resultEvicted table evicted position =>
      [("cache", .text table), ("evicted", .number evicted), ("pos", .number position)]

end Event

inductive JournalEntry (Value : Type) where
  | event (event : Event)
  /-- The phrase that an action was given. -/
  | action (phrase : Phrase Value)
  /-- The result of a step of a script, if it has one, and the cursor after it. -/
  | step (result : Option Bool) (position : Nat)
  /-- The result of a rule of a grammar, and the cursor before and after it. -/
  | rule (name : String) (result : Bool) (start stop : Nat)
  | summary (summary : Summary)

/-- The entries, newest first. -/
structure Journal (Value : Type) where
  newestFirst : List (JournalEntry Value)

namespace Journal

variable {Value : Type}

def empty : Journal Value := ⟨[]⟩

def note (journal : Journal Value) (entry : JournalEntry Value) : Journal Value :=
  ⟨entry :: journal.newestFirst⟩

def size (journal : Journal Value) : Nat :=
  journal.newestFirst.length

/-- The entries in the order in which they were written. -/
def entries (journal : Journal Value) : List (JournalEntry Value) :=
  journal.newestFirst.reverse

/-- The entries written after the first `mark` ones. -/
def entriesAfter (journal : Journal Value) (mark : Nat) : List (JournalEntry Value) :=
  journal.entries.drop mark

@[simp]
theorem entries_note (journal : Journal Value) (entry : JournalEntry Value) :
    (journal.note entry).entries = journal.entries ++ [entry] := by
  simp [entries, note]

end Journal

def JournalEntry.event? {Value : Type} : JournalEntry Value → Option Event
  | .event noted => some noted
  | _ => none

/-- The events among the entries of a journal. -/
def eventsOf {Value : Type} (entries : List (JournalEntry Value)) : List Event :=
  entries.filterMap JournalEntry.event?

end Packrat
