import Packrat.Engine.Closing
import Packrat.Engine.Run

/-!
# The primitives of the machine

A parse is driven by primitives only: one opens a phrase, one closes it, three
match terminals, and two make use of memo tables.  A terminal that fails and a
phrase that is closed as failed leave the cursor where the attempt began.
-/

namespace Packrat

inductive Primitive where
  | addTable (name diagnosis : String)
  /-- Opens a phrase, which is an inner one if it has no name. -/
  | begin (name diagnosis : String)
  | close (closing : Closing)
  /-- Matches a terminal and takes what it matched. -/
  | next (terminal : Terminal)
  /-- Asks whether a terminal matches. -/
  | ahead (terminal : Terminal)
  /-- Asks whether a terminal does not match. -/
  | aheadNot (terminal : Terminal)
  /-- Looks for a result at the cursor, and opens a phrase if there is none. -/
  | consult (table : Nat) (inner : Bool)
  /-- Takes the result that was found in place of a phrase. -/
  | reuse (use : PhraseUse)
deriving DecidableEq

namespace Machine

variable {Value : Type}

def addTable (setting : Setting Value) (name diagnosis : String)
    (machine : Machine Value) : Machine Value :=
  let table := MemoTable.empty name diagnosis setting.capacity.value
  { machine with tables := machine.tables ++ [table] }

/-- Opens a phrase at the cursor, which is to fill a reservation if it has a
ticket. -/
def begin (name diagnosis : String) (ticket : Option Ticket) (machine : Machine Value) :
    Machine Value :=
  let phrase : Phrase Value := .opened name diagnosis machine.position
  let noted := machine.noteEvent (.opened phrase.title phrase.isInner machine.position)
  { noted with
    counters :=
      if phrase.isInner then noted.counters else noted.counters.enter name noted.position
    frames := ⟨phrase, ticket⟩ :: noted.frames }

/-- Runs the action of a rule on its accepted phrase, and yields the value that the
phrase is to have. -/
def act (setting : Setting Value) (phrase : Phrase Value) : Run Value (Option Value) :=
  fun machine =>
    match setting.semantics.action? phrase.name with
    | none => .finished phrase.value machine
    | some action =>
        match action setting.source phrase with
        | .ok value => .finished (value <|> phrase.value) (machine.note (.action phrase))
        | .error fault => .faulted fault (machine.note (.action phrase))

/-- The value that a phrase has once closed.  The action sees the accepted phrase
with its children. -/
def valueAfter (setting : Setting Value) (closing : Closing) (phrase : Phrase Value) :
    Run Value (Option Value) :=
  fun machine =>
    match closing with
    | .accept => act setting { phrase with stop := machine.position, success := true } machine
    | _ => .finished phrase.value machine

/-- Records that a phrase has been closed. -/
def noteClosed (phrase : Phrase Value) (machine : Machine Value) : Machine Value :=
  let noted := machine.noteEvent
    (.closed phrase.title phrase.isInner phrase.start phrase.stop phrase.success)
  if phrase.isInner then noted
  else { noted with counters := noted.counters.finish phrase.name phrase.success }

/-- Stores a closed phrase in the table it has a reservation in. -/
def fill (ticket : Option Ticket) (phrase : Phrase Value) (machine : Machine Value) :
    Machine Value :=
  match ticket with
  | none => machine
  | some ⟨table, serial⟩ =>
      { machine with tables := machine.tables.modify table (·.fill serial phrase) }

/-- Hands a closed phrase to the phrase around it. -/
def absorb (use : PhraseUse) (part : Phrase Value) (machine : Machine Value) :
    Machine Value :=
  machine.changeCurrent (·.absorb use part machine.position)

def close (setting : Setting Value) (closing : Closing) : Run Value Bool :=
  fun machine =>
    match machine.frames with
    | [] => .faulted .noOpenPhrase machine
    | ⟨phrase, ticket⟩ :: outer =>
        match valueAfter setting closing phrase { machine with frames := outer } with
        | .finished value popped =>
            let settled := { closing.settle popped.position phrase with value := value }
            .finished closing.succeeds
              (((popped.moveTo settled.stop).noteClosed settled).fill ticket settled
                |>.absorb closing.use settled)
        | .faulted fault popped => .faulted fault popped
        | .exhausted => .exhausted

/-- Records at the cursor that a terminal failed.  A failure before the furthest
one is not news. -/
def fail (terminal : Terminal) (machine : Machine Value) : Machine Value :=
  if machine.position + 1 < machine.current.failure.reach then machine
  else
    (machine.noteEvent (.failureRecorded terminal.label machine.position)).changeCurrent
      fun phrase =>
        { phrase with failure := phrase.failure.record terminal.label machine.position }

/-- Takes characters as a phrase of their own. -/
def consume (length : Nat) (machine : Machine Value) : Machine Value :=
  let stop := machine.position + length
  let part : Phrase Value := .ofTerminal machine.position stop
  (machine.moveTo stop).changeCurrent fun phrase =>
    { phrase with stop := stop, children := phrase.children ++ [part] }

def ahead (setting : Setting Value) (terminal : Terminal) : Run Value Bool :=
  fun machine =>
    match terminal.matchLength? setting.source machine.position with
    | some _ => .finished true machine
    | none => .finished false (machine.fail terminal)

def aheadNot (setting : Setting Value) (terminal : Terminal) : Run Value Bool :=
  fun machine =>
    match terminal.matchLength? setting.source machine.position with
    | some _ => .finished false (machine.fail terminal.negate)
    | none => .finished true machine

/-- The end of the text is never taken, so it leaves no phrase behind. -/
def next (setting : Setting Value) (terminal : Terminal) : Run Value Bool :=
  if terminal = .endOfText then ahead setting terminal
  else fun machine =>
    match terminal.matchLength? setting.source machine.position with
    | some length => .finished true (machine.consume length)
    | none => .finished false (machine.fail terminal)

/-- Keeps a result for reuse.  A result of a named rule counts as reused. -/
def offer (name : String) (candidate : Phrase Value) (machine : Machine Value) :
    Machine Value :=
  { machine with
    candidate := some candidate
    counters := if name.isEmpty then machine.counters else machine.counters.reuse name }

/-- Looks for a result at the cursor.  A rule that is open at this very position
yields a failed phrase, which stops left recursion. -/
def consult (index : Nat) (inner : Bool) : Run Value Bool :=
  fun machine =>
    match machine.tables[index]? with
    | none => .faulted .outOfRange machine
    | some table =>
        let position := machine.position
        let name := if inner then "" else table.name
        let (found, searched) := table.find position
        match found with
        | .hit phrase =>
            .finished true
              (({ machine with tables := machine.tables.set index searched }.noteEvent
                (.resultReused table.name position phrase.success)).offer name phrase)
        | .pending =>
            .finished true
              (({ machine with tables := machine.tables.set index searched }.noteEvent
                (.leftRecursion table.name position)).offer name
                  (.opened name table.diagnosis position))
        | .miss =>
            let (reservation, reserved) := searched.save position
            let stored := { machine with tables := machine.tables.set index reserved }
            let noted :=
              match reservation.bind Reservation.evicted with
              | some evicted =>
                  stored.noteEvent (.resultEvicted table.name evicted position)
              | none => stored
            .finished false
              (noted.begin name table.diagnosis
                (reservation.map fun reservation => ⟨index, reservation.serial⟩))

/-- Takes the result that was found.  A successful part moves the cursor to its
end. -/
def reuse (use : PhraseUse) : Run Value Bool :=
  fun machine =>
    match machine.candidate with
    | none => .faulted .nothingToReuse machine
    | some part =>
        let taken := { machine with candidate := none }
        let moved :=
          if part.success && use != .predicate then taken.moveTo part.stop else taken
        .finished part.success (moved.absorb use part)

/-- Performs a primitive.  Opening a phrase and adding a table have no result. -/
def perform (setting : Setting Value) : Primitive → Run Value (Option Bool)
  | .addTable name diagnosis =>
      (Run.change (·.addTable setting name diagnosis)).map fun _ => none
  | .begin name diagnosis => (Run.change (·.begin name diagnosis none)).map fun _ => none
  | .close closing => (close setting closing).map some
  | .next terminal => (next setting terminal).map some
  | .ahead terminal => (ahead setting terminal).map some
  | .aheadNot terminal => (aheadNot setting terminal).map some
  | .consult table inner => (consult table inner).map some
  | .reuse use => (reuse use).map some

end Machine

end Packrat
