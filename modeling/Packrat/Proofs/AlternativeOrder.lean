import Packrat.Proofs.FailingAttempts
import Packrat.Proofs.Unmemoized

/-!
# The order of failing alternatives

Without memory, expressions that all fail at a position fail there in any order.  They leave the
cursor and the phrases alone, except for the record of the innermost phrase, and what is in this
record does not depend on the order, save for the order of its labels.
-/

namespace Packrat

variable {Value : Type} {setting : Setting Value}

/-! ## Failing one after another -/

namespace Grammar

/-- The expressions are evaluated one after another, and all of them fail. -/
inductive FailInTurn (grammar : Grammar) (setting : Setting Value) :
    List Expression → Machine Value → Machine Value → Prop where
  | nil (machine : Machine Value) : FailInTurn grammar setting [] machine machine
  | cons {expression : Expression} {rest : List Expression} {steps : Nat}
      {before between after : Machine Value}
      (hfirst : grammar.evaluate setting steps expression before = .finished false between)
      (hrest : FailInTurn grammar setting rest between after) :
      FailInTurn grammar setting (expression :: rest) before after

/-- The effect is the one with which an expression fails at a position. -/
def FailsWith (grammar : Grammar) (setting : Setting Value) (position : Nat)
    (expression : Expression) (effect : Effect Value) : Prop :=
  ∃ steps, grammar.attempt setting.source setting.semantics steps expression position =
    .ok effect ∧ effect.FailsAt position

variable {grammar : Grammar} {before after : Machine Value} {expressions : List Expression}

theorem exists_failsWith {steps position : Nat} {expression : Expression}
    (hfailed : (grammar.attempt setting.source setting.semantics steps expression position).map
      Effect.matched = .ok false) :
    ∃ effect, grammar.FailsWith setting position expression effect := by
  cases hattempt : grammar.attempt setting.source setting.semantics steps expression position with
  | error halt =>
      rw [hattempt] at hfailed
      contradiction
  | ok effect =>
      rw [hattempt] at hfailed
      exact ⟨effect, steps, hattempt, attempt_failsInPlace grammar setting.source
        setting.semantics steps expression position effect hattempt (Except.ok.inj hfailed)⟩

theorem FailInTurn.exists_effects
    (hready : (Regime.unmemoized grammar).Ready before.tables)
    (hfail : grammar.FailInTurn setting expressions before after) :
    ∃ effects, List.Forall₂ (grammar.FailsWith setting before.position) expressions effects ∧
      before.Undergoes after (.inTurn before.position effects) := by
  induction hfail with
  | nil machine => exact ⟨[], .nil, .still machine false⟩
  | @cons expression rest steps before between after hfirst _ ih =>
      have hrealizes := evaluate_realizes_unmemoized grammar setting steps expression before hready
      rw [hfirst] at hrealizes
      obtain ⟨effect, hattempt, hfailed, hbetween, hkept⟩ := hrealizes.exists_effect trivial
      have hfails := attempt_failsInPlace grammar setting.source setting.semantics steps
        expression before.position effect hattempt hfailed
      have hposition : between.position = before.position :=
        hbetween.position.trans hfails.stop_eq
      obtain ⟨effects, hrest, hafter⟩ := ih ((Regime.unmemoized grammar).ready_of_kept hready hkept)
      rw [hposition] at hrest hafter
      exact ⟨effect :: effects, .cons ⟨steps, hattempt, hfails⟩ hrest, hbetween.trans hafter⟩

theorem exists_failInTurn {effects : List (Effect Value)}
    (hready : (Regime.unmemoized grammar).Ready before.tables)
    (hfail : List.Forall₂ (grammar.FailsWith setting before.position) expressions effects) :
    ∃ after, grammar.FailInTurn setting expressions before after ∧
      before.Undergoes after (.inTurn before.position effects) := by
  generalize hposition : before.position = position at hfail
  induction hfail generalizing before with
  | nil =>
      subst hposition
      exact ⟨before, .nil before, .still before false⟩
  | @cons expression effect rest effects hfirst _ ih =>
      subst hposition
      obtain ⟨steps, hattempt, hfails⟩ := hfirst
      have hrealizes := evaluate_realizes_unmemoized grammar setting steps expression before hready
      rw [hattempt] at hrealizes
      obtain ⟨between, hfinished, hbetween, hkept⟩ := hrealizes
      rw [hfails.matched_eq] at hfinished
      obtain ⟨after, hrest, hafter⟩ := ih
        ((Regime.unmemoized grammar).ready_of_kept hready hkept)
        (hbetween.position.trans hfails.stop_eq)
      exact ⟨after, .cons hfinished hrest, hbetween.trans hafter⟩

theorem failsAt_of_failsWith {position : Nat} {effects : List (Effect Value)}
    (hfail : List.Forall₂ (grammar.FailsWith setting position) expressions effects) :
    ∀ effect ∈ effects, effect.FailsAt position := by
  induction hfail with
  | nil => exact fun effect heffect => absurd heffect List.not_mem_nil
  | cons hfirst _ ih =>
      obtain ⟨_, _, hfails⟩ := hfirst
      exact List.forall_mem_cons.mpr ⟨hfails, ih⟩

end Grammar

/-! ## The machine that is left -/

namespace Machine

variable {before after : Machine Value}

theorem current_of_stack {change : Phrase Value → Phrase Value}
    (hstack : after.core.stack = before.core.stack.changeInnermost change) :
    after.current = change before.current := by
  cases hframes : before.frames with
  | nil =>
      simp only [core, hframes, Stack.changeInnermost, Prod.mk.injEq] at hstack
      simp only [current, hframes, hstack.1, hstack.2]
  | cons frame outer =>
      simp only [core, hframes, Stack.changeInnermost, Prod.mk.injEq] at hstack
      simp only [current, hframes, hstack.2]

/-- What is done to the innermost phrase matters only there. -/
theorem changeInnermost_congr {change other : Phrase Value → Phrase Value}
    (hchange : change before.current = other before.current) :
    before.core.stack.changeInnermost change = before.core.stack.changeInnermost other := by
  cases hframes : before.frames <;>
    simp only [current, hframes] at hchange <;>
    simp only [core, hframes, Stack.changeInnermost, hchange]

/-- The cursor and the phrases are as before, save for the record of the innermost phrase. -/
structure SameButRecord (before after : Machine Value) : Prop where
  position_eq : after.position = before.position
  stack_eq : (after.top, after.frames) =
    Stack.changeInnermost (fun phrase => { phrase with failure := after.current.failure })
      (before.top, before.frames)

/-- A failure changes nothing but the record of the innermost phrase. -/
theorem Undergoes.of_failsAt {effect : Effect Value}
    (hundergoes : before.Undergoes after effect) (hfails : effect.FailsAt before.position) :
    before.SameButRecord after ∧
      after.current.failure = before.current.failure.mergeAll effect.records := by
  have happly := hfails.applyTo_eq before.current
  have hcurrent := current_of_stack hundergoes.stack
  rw [happly] at hcurrent
  have hfailure : after.current.failure = before.current.failure.mergeAll effect.records := by
    rw [hcurrent]
  refine ⟨⟨hundergoes.position.trans hfails.stop_eq,
    hundergoes.stack.trans (changeInnermost_congr ?_)⟩, hfailure⟩
  rw [happly, hfailure]

end Machine

/-! ## Another order -/

namespace Grammar

variable {grammar : Grammar} {before after : Machine Value}
variable {expressions others : List Expression}

/-- The failures happen in any order, and leave alike records. -/
theorem FailInTurn.exists_reordered (hready : (Regime.unmemoized grammar).Ready before.tables)
    (hfail : grammar.FailInTurn setting expressions before after)
    (hperm : expressions.Perm others) :
    ∃ again, grammar.FailInTurn setting others before again ∧
      before.SameButRecord after ∧ before.SameButRecord again ∧
      after.current.failure.Alike again.current.failure := by
  obtain ⟨effects, heffects, hafter⟩ := hfail.exists_effects hready
  obtain ⟨permuted, hpermuted, hsame⟩ := List.perm_comp_forall₂ hperm.symm heffects
  obtain ⟨again, hagain, hleft⟩ := exists_failInTurn hready hpermuted
  obtain ⟨hfails, hotherFails, halike⟩ :=
    Effect.inTurn_failAlike hsame.symm (failsAt_of_failsWith heffects)
  obtain ⟨hkept, hrecord⟩ := hafter.of_failsAt hfails
  obtain ⟨hotherKept, hotherRecord⟩ := hleft.of_failsAt hotherFails
  refine ⟨again, hagain, hkept, hotherKept, ?_⟩
  rw [hrecord, hotherRecord]
  exact halike before.current.failure

end Grammar

end Packrat
