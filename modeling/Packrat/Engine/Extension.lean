import Packrat.Engine.Run

/-!
# Runs that are allowed more steps

A run is extended by another one if the two agree wherever the first does not use
up its steps.  Composition keeps this relation, so an interpreter that hands fewer
steps to its parts is extended by the same interpreter with more steps.
-/

namespace Packrat

namespace Run

variable {Value Result Next : Type}

/-- Wherever `run` ends, `longer` ends in the same way. -/
def ExtendedBy (run longer : Run Value Result) : Prop :=
  ∀ machine, run machine ≠ .exhausted → longer machine = run machine

theorem ExtendedBy.refl (run : Run Value Result) : run.ExtendedBy run :=
  fun _ _ => rfl

theorem exhausted_extendedBy (run : Run Value Result) :
    (exhausted : Run Value Result).ExtendedBy run := by
  intro machine hends
  exact absurd rfl hends

theorem ExtendedBy.andThen {run longer : Run Value Result}
    {next longerNext : Result → Run Value Next}
    (hrun : run.ExtendedBy longer)
    (hnext : ∀ result, (next result).ExtendedBy (longerNext result)) :
    (run.andThen next).ExtendedBy (longer.andThen longerNext) := by
  intro machine hends
  unfold Run.andThen at hends ⊢
  have hagree := hrun machine
  cases hresult : run machine with
  | finished result after =>
    simp only [hresult] at hends hagree ⊢
    rw [hagree (by simp)]
    exact hnext result after hends
  | faulted fault after =>
    simp only [hresult] at hagree ⊢
    rw [hagree (by simp)]
  | exhausted =>
    simp only [hresult] at hends
    exact absurd rfl hends

theorem ExtendedBy.ite {condition : Prop} [Decidable condition]
    {run longer other longerOther : Run Value Result}
    (hrun : run.ExtendedBy longer) (hother : other.ExtendedBy longerOther) :
    (if condition then run else other).ExtendedBy
      (if condition then longer else longerOther) := by
  split
  · exact hrun
  · exact hother

theorem ExtendedBy.all {Item : Type} {run longer : Item → Run Value Bool}
    (hrun : ∀ item, (run item).ExtendedBy (longer item)) (items : List Item) :
    (Run.all (items.map run)).ExtendedBy (Run.all (items.map longer)) := by
  induction items with
  | nil => exact .refl _
  | cons item rest hrest =>
    exact (hrun item).andThen fun _ => .ite hrest (.refl _)

theorem ExtendedBy.any {Item : Type} {run longer : Item → Run Value Bool}
    (hrun : ∀ item, (run item).ExtendedBy (longer item)) (items : List Item) :
    (Run.any (items.map run)).ExtendedBy (Run.any (items.map longer)) := by
  induction items with
  | nil => exact .refl _
  | cons item rest hrest =>
    exact (hrun item).andThen fun _ => .ite (.refl _) hrest

end Run

end Packrat
