import Packrat.Tree.Phrase

/-!
# Memo tables

A memo table keeps the results of one rule at the positions where the rule was
tried most recently.  Its slots form a ring: the slot to be used next is always
the one used longest ago, and a result that stood there is evicted.  A slot is
reserved when the rule is opened and filled when it is closed; in between, finding
it means that the rule is being tried at that position right now.
-/

namespace Packrat

structure TableCounters where
  lookups : Nat
  hits : Nat
  saves : Nat
  evictions : Nat
deriving DecidableEq

def TableCounters.zero : TableCounters := ⟨0, 0, 0, 0⟩

/-- The serial number tells a reservation from every other one of the same table. -/
structure Slot (Value : Type) where
  start : Nat
  serial : Nat
  result : Option (Phrase Value)

inductive Lookup (Value : Type) where
  | miss
  /-- The rule is open at this position. -/
  | pending
  | hit (phrase : Phrase Value)

structure MemoTable (Value : Type) where
  name : String
  diagnosis : String
  slots : List (Option (Slot Value))
  /-- The index of the slot reserved last. -/
  last : Nat
  /-- The serial number given out last. -/
  serial : Nat
  counters : TableCounters

/-- What a reservation leads to: the serial number to fill it by, and the position
of the result that had to make room. -/
structure Reservation where
  serial : Nat
  evicted : Option Nat
deriving DecidableEq

namespace MemoTable

variable {Value : Type}

def empty (name diagnosis : String) (capacity : Nat) : MemoTable Value :=
  ⟨name, diagnosis, List.replicate capacity none, 0, 0, .zero⟩

/-- Forgets everything but the name and the diagnosis. -/
def reset (table : MemoTable Value) (capacity : Nat) : MemoTable Value :=
  empty table.name table.diagnosis capacity

/-- The slots in use. -/
def occupied (table : MemoTable Value) : List (Slot Value) :=
  table.slots.filterMap id

/-- What the slots say about a position. -/
def lookup (table : MemoTable Value) (position : Nat) : Lookup Value :=
  match table.occupied.find? (·.start == position) with
  | none => .miss
  | some slot =>
      match slot.result with
      | none => .pending
      | some phrase => .hit phrase

/-- Looks a position up and counts that.  A table without slots counts nothing. -/
def find (table : MemoTable Value) (position : Nat) : Lookup Value × MemoTable Value :=
  if table.slots.isEmpty then (.miss, table)
  else
    let counters := { table.counters with lookups := table.counters.lookups + 1 }
    match table.lookup position with
    | .miss => (.miss, { table with counters := counters })
    | found => (found, { table with counters := { counters with hits := counters.hits + 1 } })

/-- Reserves a slot for a result that starts at a position.  A table without slots
has nothing to reserve. -/
def save (table : MemoTable Value) (position : Nat) :
    Option Reservation × MemoTable Value :=
  if table.slots.isEmpty then (none, table)
  else
    let next := (table.last + 1) % table.slots.length
    let serial := table.serial + 1
    let evicted := (table.slots[next]?.join).map Slot.start
    let counters := table.counters
    (some ⟨serial, evicted⟩,
      { table with
        slots := table.slots.set next (some ⟨position, serial, none⟩)
        last := next
        serial := serial
        counters :=
          { counters with
            saves := counters.saves + 1
            evictions := counters.evictions + if evicted.isSome then 1 else 0 } })

/-- Stores a result in the slot reserved under a serial number, unless that slot
has been taken by a later reservation. -/
def fill (table : MemoTable Value) (serial : Nat) (phrase : Phrase Value) :
    MemoTable Value :=
  { table with
    slots := table.slots.map fun slot? =>
      slot?.map fun slot =>
        if slot.serial = serial then { slot with result := some phrase } else slot }

@[simp]
theorem length_slots_reset (table : MemoTable Value) (capacity : Nat) :
    (table.reset capacity).slots.length = capacity := by
  simp [reset, empty]

@[simp]
theorem slots_find (table : MemoTable Value) (position : Nat) :
    (table.find position).2.slots = table.slots := by
  unfold find
  split
  · rfl
  · cases table.lookup position <;> rfl

@[simp]
theorem length_slots_save (table : MemoTable Value) (position : Nat) :
    (table.save position).2.slots.length = table.slots.length := by
  unfold save
  split
  · rfl
  · simp only [List.length_set]

@[simp]
theorem length_slots_fill (table : MemoTable Value) (serial : Nat)
    (phrase : Phrase Value) :
    (table.fill serial phrase).slots.length = table.slots.length := by
  simp [fill]

end MemoTable

end Packrat
