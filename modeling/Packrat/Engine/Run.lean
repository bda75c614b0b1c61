import Packrat.Engine.Fault
import Packrat.Engine.Machine

/-!
# Runs of the machine

A run starts from a machine and either finishes with a result, ends in a fault, or
uses up the steps it was allowed.  A fault leaves the machine as it was at that
moment.  Runs are composed one after the other, and the first one that does not
finish decides.
-/

namespace Packrat

inductive Outcome (Value Result : Type) where
  | finished (result : Result) (machine : Machine Value)
  | faulted (fault : Fault) (machine : Machine Value)
  | exhausted

abbrev Run (Value Result : Type) := Machine Value → Outcome Value Result

namespace Run

variable {Value Result Next : Type}

def done (result : Result) : Run Value Result :=
  fun machine => .finished result machine

def fault (fault : Fault) : Run Value Result :=
  fun machine => .faulted fault machine

def exhausted : Run Value Result :=
  fun _ => .exhausted

def andThen (run : Run Value Result) (next : Result → Run Value Next) : Run Value Next :=
  fun machine =>
    match run machine with
    | .finished result machine => next result machine
    | .faulted fault machine => .faulted fault machine
    | .exhausted => .exhausted

def map (convert : Result → Next) (run : Run Value Result) : Run Value Next :=
  run.andThen fun result => done (convert result)

/-- Changes the machine and has no result. -/
def change (update : Machine Value → Machine Value) : Run Value Unit :=
  fun machine => .finished () (update machine)

/-- Looks at the machine without changing it. -/
def look (view : Machine Value → Result) : Run Value Result :=
  fun machine => .finished (view machine) machine

/-- Runs until the first one that is false; true if there is none. -/
def all : List (Run Value Bool) → Run Value Bool
  | [] => done true
  | run :: rest => run.andThen fun matched => if matched then all rest else done false

/-- Runs until the first one that is true; false if there is none. -/
def any : List (Run Value Bool) → Run Value Bool
  | [] => done false
  | run :: rest => run.andThen fun matched => if matched then done true else any rest

@[simp]
theorem andThen_done (run : Run Value Result) : run.andThen done = run := by
  funext machine
  unfold andThen
  cases run machine <;> rfl

theorem andThen_assoc {Last : Type} (run : Run Value Result)
    (next : Result → Run Value Next) (last : Next → Run Value Last) :
    (run.andThen next).andThen last =
      run.andThen fun result => (next result).andThen last := by
  funext machine
  unfold andThen
  cases run machine <;> rfl

end Run

end Packrat
