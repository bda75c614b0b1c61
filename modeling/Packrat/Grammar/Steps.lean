import Packrat.Engine.Extension
import Packrat.Grammar.Evaluation

/-!
# The number of steps of an evaluation

The number of steps bounds how deep an evaluation may nest and has no other
influence: once an evaluation ends, more steps lead to the same outcome.
-/

namespace Packrat

namespace Grammar

variable {Value : Type}

theorem closedAfter_extendedBy (setting : Setting Value) {body longer : Run Value Bool}
    (hbody : body.ExtendedBy longer) (onMatch onFailure : Closing) :
    (closedAfter setting body onMatch onFailure).ExtendedBy
      (closedAfter setting longer onMatch onFailure) :=
  hbody.andThen fun _ => .refl _

theorem inside_extendedBy (setting : Setting Value) (opening : Opening) (use : PhraseUse)
    {body longer : Run Value Bool} (hbody : body.ExtendedBy longer)
    (onMatch onFailure : Closing) :
    (inside setting opening use body onMatch onFailure).ExtendedBy
      (inside setting opening use longer onMatch onFailure) := by
  unfold inside
  cases opening with
  | plain diagnosis =>
    exact (Run.ExtendedBy.refl _).andThen fun _ =>
      closedAfter_extendedBy setting hbody onMatch onFailure
  | memoized table =>
    exact (Run.ExtendedBy.refl _).andThen fun _ =>
      .ite (.refl _) (closedAfter_extendedBy setting hbody onMatch onFailure)

theorem ruleProcedure_extendedBy (setting : Setting Value) (rule : Rule)
    {body longer : Run Value Bool} (hbody : body.ExtendedBy longer) :
    (ruleProcedure setting rule body).ExtendedBy (ruleProcedure setting rule longer) := by
  unfold ruleProcedure
  cases rule.table with
  | none =>
    exact (Run.ExtendedBy.refl _).andThen fun _ =>
      closedAfter_extendedBy setting hbody .accept .reject
  | some table =>
    exact (Run.ExtendedBy.refl _).andThen fun _ =>
      .ite (.refl _) (closedAfter_extendedBy setting hbody .accept .reject)

theorem remarked_extendedBy (name : String) {procedure longer : Run Value Bool}
    (hprocedure : procedure.ExtendedBy longer) :
    (remarked name procedure).ExtendedBy (remarked name longer) :=
  (Run.ExtendedBy.refl _).andThen fun _ => hprocedure.andThen fun _ => .refl _

theorem evaluate_extendedBy_succ (grammar : Grammar) (setting : Setting Value)
    (steps : Nat) (expression : Expression) :
    (grammar.evaluate setting steps expression).ExtendedBy
      (grammar.evaluate setting (steps + 1) expression) := by
  induction steps generalizing expression with
  | zero => exact Run.exhausted_extendedBy _
  | succ steps hsteps =>
    cases expression with
    | terminal | ahead | aheadNot => exact .refl _
    | rule name =>
      unfold evaluate
      cases grammar.rule? name with
      | none => exact .refl _
      | some rule =>
        exact remarked_extendedBy name
          (ruleProcedure_extendedBy setting rule (.all hsteps rule.body))
    | choice alternatives => exact .any hsteps alternatives
    | optional body => exact (hsteps body).andThen fun _ => .refl _
    | star body =>
      exact (Run.ExtendedBy.refl _).andThen fun _ =>
        (hsteps body).andThen fun _ =>
          .ite ((Run.ExtendedBy.refl _).andThen fun _ => .ite (.refl _) (hsteps (.star body)))
            (.refl _)
    | plus body =>
      exact (hsteps body).andThen fun _ => .ite (hsteps (.star body)) (.refl _)
    | sequence opening parts =>
      exact inside_extendedBy setting opening .inner (.all hsteps parts) .acceptInner
        .rejectInner
    | andPredicate opening argument =>
      exact inside_extendedBy setting opening .predicate (hsteps argument) .acceptAnd
        .rejectAnd
    | notPredicate opening argument =>
      exact inside_extendedBy setting opening .predicate (hsteps argument) .rejectNot
        .acceptNot

/-- More steps never change the outcome of an evaluation that ends. -/
theorem evaluate_extendedBy (grammar : Grammar) (setting : Setting Value)
    {steps more : Nat} (hsteps : steps ≤ more) (expression : Expression) :
    (grammar.evaluate setting steps expression).ExtendedBy
      (grammar.evaluate setting more expression) := by
  induction hsteps with
  | refl => exact .refl _
  | step _ hshorter =>
    intro machine hends
    have hagree := hshorter machine hends
    rw [evaluate_extendedBy_succ grammar setting _ expression machine (hagree ▸ hends)]
    exact hagree

end Grammar

end Packrat
