import Packrat.Setup.Problem

/-!
# Memo capacity

How many results each memo table keeps.  Zero switches memoization off.
-/

namespace Packrat

def largestCapacity : Nat := 9

structure MemoCapacity where
  value : Nat
  value_le : value ≤ largestCapacity
deriving DecidableEq

namespace MemoCapacity

def none : MemoCapacity := ⟨0, Nat.zero_le _⟩

/-- Refuses a capacity beyond the limit instead of lowering it. -/
def ofNat (capacity : Nat) : Except SetupProblem MemoCapacity :=
  if within : capacity ≤ largestCapacity then .ok ⟨capacity, within⟩
  else .error (.capacityOutOfRange capacity largestCapacity)

end MemoCapacity

end Packrat
