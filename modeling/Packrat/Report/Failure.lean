/-!
# Furthest failures

A failure record holds the furthest position at which something failed to match
and every label that failed there, in order of arrival and with repetitions.  The
empty record lies before every position.
-/

namespace Packrat

structure Failure where
  position : Option Nat
  labels : List String
deriving DecidableEq

namespace Failure

def empty : Failure := ⟨none, []⟩

/-- The record of one label. -/
def single (label : String) (position : Nat) : Failure := ⟨some position, [label]⟩

/-- How many positions the record reaches over: none when it is empty, and
otherwise those up to its own. -/
def reach (failure : Failure) : Nat :=
  match failure.position with
  | none => 0
  | some position => position + 1

@[simp]
theorem reach_empty : empty.reach = 0 := rfl

@[simp]
theorem reach_single (label : String) (position : Nat) :
    (single label position).reach = position + 1 := rfl

theorem reach_eq_zero_iff (failure : Failure) :
    failure.reach = 0 ↔ failure.position = none := by
  cases hposition : failure.position <;> simp [reach, hposition]

/-- Notes that a label failed at the cursor. -/
def record (failure : Failure) (label : String) (cursor : Nat) : Failure :=
  if cursor + 1 < failure.reach then failure
  else if failure.reach < cursor + 1 then single label cursor
  else { failure with labels := failure.labels ++ [label] }

/-- Joins another record to this one and keeps what lies furthest.  Once the cursor
has passed both records, neither can be the furthest failure any more and both are
dropped. -/
def merge (failure other : Failure) (cursor : Nat) : Failure :=
  if failure.reach ≤ cursor ∧ other.reach ≤ cursor then empty
  else if other.reach < failure.reach then failure
  else if failure.reach < other.reach then other
  else { failure with labels := failure.labels ++ other.labels }

end Failure

end Packrat
