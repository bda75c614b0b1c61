import Packrat.Action.Semantics
import Packrat.Engine.Journal
import Packrat.Setup.Capacity

/-!
# The parsing machine

The machine moves a cursor over a source and keeps the phrases that are open, one
inside the other.  What a parse only reads, its setting, is kept apart from what it
changes.
-/

namespace Packrat

structure Setting (Value : Type) where
  source : Source
  semantics : Semantics Value
  capacity : MemoCapacity

/-- The reservation that an open phrase will fill. -/
structure Ticket where
  table : Nat
  serial : Nat
deriving DecidableEq

structure Frame (Value : Type) where
  phrase : Phrase Value
  ticket : Option Ticket

structure Machine (Value : Type) where
  position : Nat
  /-- Receives the phrase of the root rule; the open phrases lie inside it. -/
  top : Phrase Value
  /-- The open phrases, innermost first. -/
  frames : List (Frame Value)
  /-- The result found in a memo table that waits to be reused. -/
  candidate : Option (Phrase Value)
  tables : List (MemoTable Value)
  counters : Counters
  journal : Journal Value

namespace Machine

variable {Value : Type}

def initial : Machine Value :=
  ⟨0, .opened "" "" 0, [], none, [], .zero, .empty⟩

/-- The phrase that receives the next part. -/
def current (machine : Machine Value) : Phrase Value :=
  match machine.frames with
  | [] => machine.top
  | frame :: _ => frame.phrase

def changeCurrent (machine : Machine Value) (change : Phrase Value → Phrase Value) :
    Machine Value :=
  match machine.frames with
  | [] => { machine with top := change machine.top }
  | frame :: outer =>
      { machine with frames := { frame with phrase := change frame.phrase } :: outer }

def note (machine : Machine Value) (entry : JournalEntry Value) : Machine Value :=
  { machine with journal := machine.journal.note entry }

def noteEvent (machine : Machine Value) (event : Event) : Machine Value :=
  machine.note (.event event)

def moveTo (machine : Machine Value) (position : Nat) : Machine Value :=
  { machine with position := position }

/-- The state in which every parse begins.  Of the tables only the names remain. -/
def reset (machine : Machine Value) (capacity : MemoCapacity) : Machine Value :=
  { initial with tables := machine.tables.map (·.reset capacity.value) }

theorem reset_eq_of_tables {machine other : Machine Value} {capacity : MemoCapacity}
    (htables :
      machine.tables.map (fun table => (table.name, table.diagnosis)) =
        other.tables.map (fun table => (table.name, table.diagnosis))) :
    machine.reset capacity = other.reset capacity := by
  have hreset : ∀ tables : List (MemoTable Value),
      tables.map (·.reset capacity.value) =
        (tables.map fun table => (table.name, table.diagnosis)).map fun label =>
          MemoTable.empty label.1 label.2 capacity.value := by
    intro tables
    simp [MemoTable.reset]
  unfold reset
  rw [hreset machine.tables, hreset other.tables, htables]

def summary (machine : Machine Value) : Summary :=
  ⟨machine.counters.rules,
    machine.tables.map fun table => (table.name, machine.counters.table? table.name)⟩

end Machine

end Packrat
