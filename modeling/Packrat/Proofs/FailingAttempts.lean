import Mathlib.Data.List.Perm.Basic
import Packrat.Proofs.AttemptResult
import Packrat.Proofs.RecordOrder

/-!
# Attempts that fail

An attempt that fails hands over records only, and all of them where it began.  So several
attempts that fail one after another at one position may do so in any order.
-/

namespace Packrat

variable {Value : Type}

namespace Effect

/-- Nothing is left of the effect but records that are joined at a position. -/
structure FailsAt (effect : Effect Value) (position : Nat) : Prop where
  matched_eq : effect.matched = false
  stop_eq : effect.stop = position
  last_eq : effect.last = none
  parts_eq : effect.parts = []
  records_at : ∀ record ∈ effect.records, record.2 = position

variable {effect first second : Effect Value} {position : Nat}

theorem failsAt_still (position : Nat) : (still false position : Effect Value).FailsAt position :=
  ⟨rfl, rfl, rfl, rfl, fun _ hrecord => absurd hrecord List.not_mem_nil⟩

/-- One record, handed over where it is joined. -/
theorem failsAt_single (failure : Failure) (position : Nat) (visits : List Visit) :
    (⟨false, position, none, [], [(failure, position)], visits⟩ : Effect Value).FailsAt
      position := by
  refine ⟨rfl, rfl, rfl, rfl, fun record hrecord => ?_⟩
  rw [List.mem_singleton.mp hrecord]

theorem FailsAt.followedBy (hfirst : first.FailsAt position) (hsecond : second.FailsAt position) :
    (first.followedBy second).FailsAt position where
  matched_eq := hsecond.matched_eq
  stop_eq := hsecond.stop_eq
  last_eq := by simp [Effect.followedBy, hfirst.last_eq, hsecond.last_eq]
  parts_eq := by simp [Effect.followedBy, hfirst.parts_eq, hsecond.parts_eq]
  records_at record hrecord := by
    rcases List.mem_append.mp hrecord with hbefore | hafter
    · exact hfirst.records_at record hbefore
    · exact hsecond.records_at record hafter

theorem failsAt_ofPart {part : Phrase Value} (use : PhraseUse) (visits : List Visit)
    (hfailed : part.success = false) : (ofPart use part visits).FailsAt part.stop := by
  have hpart : ofPart use part visits =
      ⟨false, part.stop, none, [], [(part.failure, part.stop)], visits⟩ := by
    simp [ofPart, hfailed]
  rw [hpart]
  exact failsAt_single part.failure part.stop visits

/-- Of the phrase around it, a failure changes nothing but the record. -/
theorem FailsAt.applyTo_eq (hfails : effect.FailsAt position) (phrase : Phrase Value) :
    effect.applyTo phrase =
      { phrase with failure := phrase.failure.mergeAll effect.records } := by
  rw [applyTo, hfails.last_eq, hfails.parts_eq, Option.getD_none, List.append_nil]

/-- Several effects, one after another, that fail. -/
def inTurn (position : Nat) (effects : List (Effect Value)) : Effect Value :=
  effects.foldr followedBy (.still false position)

theorem records_inTurn (position : Nat) (effects : List (Effect Value)) :
    (inTurn position effects).records = effects.flatMap records := by
  induction effects with
  | nil => rfl
  | cons effect rest ih =>
      rw [List.flatMap_cons, ← ih]
      rfl

theorem failsAt_inTurn {effects : List (Effect Value)}
    (hfails : ∀ effect ∈ effects, effect.FailsAt position) :
    (inTurn position effects).FailsAt position := by
  induction effects with
  | nil => exact failsAt_still position
  | cons effect rest ih =>
      rw [List.forall_mem_cons] at hfails
      exact hfails.1.followedBy (ih hfails.2)

/-- Both effects fail at the position, and leave alike records wherever they are joined. -/
structure FailAlike (position : Nat) (effect other : Effect Value) : Prop where
  failsAt : effect.FailsAt position
  other_failsAt : other.FailsAt position
  alike : ∀ failure : Failure,
    (failure.mergeAll effect.records).Alike (failure.mergeAll other.records)

/-- In another order, the same failures leave alike records. -/
theorem inTurn_failAlike {effects permuted : List (Effect Value)}
    (hperm : effects.Perm permuted) (hfails : ∀ effect ∈ effects, effect.FailsAt position) :
    FailAlike position (inTurn position effects) (inTurn position permuted) where
  failsAt := failsAt_inTurn hfails
  other_failsAt := failsAt_inTurn fun effect hmember => hfails effect (hperm.mem_iff.mpr hmember)
  alike failure := by
    apply Failure.mergeAll_perm_at
    · rw [records_inTurn, records_inTurn]
      exact hperm.flatMap_right _
    · exact (failsAt_inTurn hfails).records_at

end Effect

namespace Attempt

/-- Whenever the attempt fails, it leaves nothing but records where it began. -/
def FailsInPlace (attempt : Attempt Value) : Prop :=
  ∀ position effect, attempt position = .ok effect → effect.matched = false →
    effect.FailsAt position

variable {source : Source} {semantics : Semantics Value} {attempt : Attempt Value}

theorem FailsInPlace.fault (fault : Fault) : (Attempt.fault fault : Attempt Value).FailsInPlace :=
  nofun

theorem FailsInPlace.ahead (source : Source) (terminal : Terminal) :
    (ahead source terminal : Attempt Value).FailsInPlace := by
  intro position effect heffect hfailed
  rw [ahead_eq_ok] at heffect
  obtain rfl := Except.ok.inj heffect
  cases hmatch : terminal.matchLength? source position with
  | none => exact Effect.failsAt_single _ _ _
  | some length =>
      rw [hmatch] at hfailed
      contradiction

theorem FailsInPlace.aheadNot (source : Source) (terminal : Terminal) :
    (aheadNot source terminal : Attempt Value).FailsInPlace := by
  intro position effect heffect hfailed
  rw [aheadNot_eq_ok] at heffect
  obtain rfl := Except.ok.inj heffect
  cases hmatch : terminal.matchLength? source position with
  | none =>
      rw [hmatch] at hfailed
      contradiction
  | some length => exact Effect.failsAt_single _ _ _

theorem FailsInPlace.next (source : Source) (terminal : Terminal) :
    (next source terminal : Attempt Value).FailsInPlace := by
  intro position effect heffect hfailed
  rw [next_eq_ok] at heffect
  obtain rfl := Except.ok.inj heffect
  cases hmatch : terminal.matchLength? source position with
  | none => exact Effect.failsAt_single _ _ _
  | some length =>
      simp only [hmatch] at hfailed
      split at hfailed <;> contradiction

theorem FailsInPlace.within (enclosure : Enclosure) (label? : Option TableLabel)
    (body : Attempt Value) :
    (within source semantics enclosure label? body).FailsInPlace := by
  intro position effect heffect hfailed
  have hstop := Restores.within enclosure label? body position effect heffect hfailed
  obtain ⟨label, inside, part, _, _, _, rfl⟩ := within_eq_ok_iff.mp heffect
  rw [Effect.matched_ofPart] at hfailed
  rw [Effect.stop_ofPart] at hstop
  rw [← hstop]
  exact Effect.failsAt_ofPart _ _ hfailed

/-- The attempts all fail at a position, with the given effects. -/
def FailTogether (position : Nat) (attempts : List (Attempt Value))
    (effects : List (Effect Value)) : Prop :=
  List.Forall₂ (fun attempt effect => attempt position = .ok effect ∧ effect.FailsAt position)
    attempts effects

theorem FailTogether.failsAt {position : Nat} {attempts : List (Attempt Value)}
    {effects : List (Effect Value)} (hfail : FailTogether position attempts effects) :
    ∀ effect ∈ effects, effect.FailsAt position := by
  induction hfail with
  | nil => exact fun effect heffect => absurd heffect List.not_mem_nil
  | cons hfirst _ ih => exact List.forall_mem_cons.mpr ⟨hfirst.2, ih⟩

/-- A choice fails if all of its alternatives fail, one after another. -/
theorem any_eq_ok_of_failTogether {position : Nat} {attempts : List (Attempt Value)}
    {effects : List (Effect Value)} (hfail : FailTogether position attempts effects) :
    any attempts position = .ok (.inTurn position effects) := by
  induction hfail with
  | nil => rfl
  | @cons attempt effect attempts effects hfirst hrest ih =>
      refine andThen_eq_ok_iff.mpr ⟨effect, .inTurn position effects, hfirst.1, ?_, rfl⟩
      rw [hfirst.2.matched_eq, if_neg Bool.false_ne_true, hfirst.2.stop_eq]
      exact ih

theorem exists_failTogether_of_any {position : Nat} {attempts : List (Attempt Value)}
    (hattempts : ∀ attempt ∈ attempts, attempt.FailsInPlace) {effect : Effect Value}
    (heffect : any attempts position = .ok effect) (hfailed : effect.matched = false) :
    ∃ effects, FailTogether position attempts effects ∧ effect = .inTurn position effects := by
  induction attempts generalizing effect with
  | nil =>
      obtain rfl := Except.ok.inj heffect
      exact ⟨[], .nil, rfl⟩
  | cons attempt rest ih =>
      rw [List.forall_mem_cons] at hattempts
      obtain ⟨first, second, hfirst, hsecond, rfl⟩ := andThen_eq_ok_iff.mp heffect
      cases hmatched : first.matched with
      | true =>
          rw [hmatched, if_pos rfl] at hsecond
          obtain rfl := Except.ok.inj hsecond
          contradiction
      | false =>
          have hfails := hattempts.1 position first hfirst hmatched
          rw [hmatched, if_neg Bool.false_ne_true, hfails.stop_eq] at hsecond
          obtain ⟨effects, hrest, rfl⟩ := ih hattempts.2 hsecond hfailed
          exact ⟨first :: effects, .cons ⟨hfirst, hfails⟩ hrest, rfl⟩

theorem FailsInPlace.any {attempts : List (Attempt Value)}
    (hattempts : ∀ attempt ∈ attempts, attempt.FailsInPlace) :
    (Attempt.any attempts).FailsInPlace := by
  intro position effect heffect hfailed
  obtain ⟨effects, hfail, rfl⟩ := exists_failTogether_of_any hattempts heffect hfailed
  exact Effect.failsAt_inTurn hfail.failsAt

end Attempt

namespace Grammar

variable (grammar : Grammar) (source : Source) (semantics : Semantics Value)

theorem attempt_failsInPlace (steps : Nat) (expression : Expression) :
    (grammar.attempt source semantics steps expression).FailsInPlace := by
  induction steps generalizing expression with
  | zero => exact nofun
  | succ steps ih =>
      cases expression with
      | terminal terminal => exact .next source terminal
      | ahead terminal => exact .ahead source terminal
      | aheadNot terminal => exact .aheadNot source terminal
      | rule name =>
          rw [attempt]
          cases grammar.rule? name with
          | none => exact .fault .outOfRange
          | some rule => exact .within .rule (grammar.ruleLabel? rule) _
      | choice alternatives =>
          apply Attempt.FailsInPlace.any
          intro attempt hattempt
          obtain ⟨alternative, _, rfl⟩ := List.mem_map.mp hattempt
          exact ih alternative
      | optional body =>
          intro position effect heffect hfailed
          obtain ⟨first, second, _, hsecond, rfl⟩ := Attempt.andThen_eq_ok_iff.mp heffect
          rw [← Except.ok.inj hsecond] at hfailed
          contradiction
      | star body =>
          intro position effect heffect hfailed
          rw [grammar.matched_of_attempt_star source semantics heffect] at hfailed
          contradiction
      | plus body =>
          intro position effect heffect hfailed
          obtain ⟨first, second, hfirst, hsecond, rfl⟩ := Attempt.andThen_eq_ok_iff.mp heffect
          cases hmatched : first.matched with
          | true =>
              rw [hmatched, if_pos rfl] at hsecond
              have hmatches := grammar.matched_of_attempt_star source semantics hsecond
              simp [Effect.followedBy, hmatches] at hfailed
          | false =>
              have hfails := ih body position first hfirst hmatched
              rw [hmatched, if_neg Bool.false_ne_true, hfails.stop_eq] at hsecond
              obtain rfl := Except.ok.inj hsecond
              exact hfails.followedBy (Effect.failsAt_still position)
      | sequence opening parts => exact .within .sequence (grammar.innerLabel? opening) _
      | andPredicate opening argument =>
          exact .within .andPredicate (grammar.innerLabel? opening) _
      | notPredicate opening argument =>
          exact .within .notPredicate (grammar.innerLabel? opening) _

/-- A choice that fails does so alike with its alternatives in another order. -/
theorem exists_attempt_choice_failAlike {expressions others : List Expression}
    (hperm : expressions.Perm others) {steps position : Nat} {effect : Effect Value}
    (heffect : grammar.attempt source semantics steps (.choice expressions) position = .ok effect)
    (hfailed : effect.matched = false) :
    ∃ other, grammar.attempt source semantics steps (.choice others) position = .ok other ∧
      effect.FailAlike position other := by
  cases steps with
  | zero => contradiction
  | succ steps =>
      have hattempts : ∀ attempt ∈ expressions.map (grammar.attempt source semantics steps),
          attempt.FailsInPlace := by
        intro attempt hattempt
        obtain ⟨expression, _, rfl⟩ := List.mem_map.mp hattempt
        exact grammar.attempt_failsInPlace source semantics steps expression
      obtain ⟨effects, hfail, rfl⟩ :=
        Attempt.exists_failTogether_of_any hattempts heffect hfailed
      obtain ⟨permuted, hpermuted, hsame⟩ :=
        List.perm_comp_forall₂ (hperm.map _).symm hfail
      exact ⟨.inTurn position permuted, Attempt.any_eq_ok_of_failTogether hpermuted,
        Effect.inTurn_failAlike hsame.symm hfail.failsAt⟩

end Grammar

end Packrat
