import Packrat.Proofs.Course
import Packrat.Proofs.Ledger

/-!
# Advancing

What has matched may have moved the cursor on and added parts to the innermost phrase.  What
has failed has moved nothing and has at most recorded failures.  Either way the phrases
around the innermost one are as they were.
-/

namespace Packrat

variable {Value : Type} {setting : Setting Value}

/-! ## The innermost phrase -/

/-- A phrase that may have got more parts. -/
structure Phrase.Extends (grown phrase : Phrase Value) : Prop where
  continues : grown.Continues phrase
  success_eq : grown.success = phrase.success
  value_eq : grown.value = phrase.value
  earlier : phrase.children <+: grown.children

/-- A change that adds parts at most, and none after a failure. -/
structure Phrase.ChangesBy (change : Phrase Value → Phrase Value) (matched : Bool) : Prop where
  extends_self : ∀ phrase, (change phrase).Extends phrase
  failure_only : matched = false →
    ∀ phrase, change phrase = { phrase with failure := (change phrase).failure }

namespace Phrase

theorem Extends.trans {last grown phrase : Phrase Value} (hlast : last.Extends grown)
    (hgrown : grown.Extends phrase) : last.Extends phrase where
  continues := {
    name_eq := hlast.continues.name_eq.trans hgrown.continues.name_eq
    diagnosis_eq := hlast.continues.diagnosis_eq.trans hgrown.continues.diagnosis_eq
    start_eq := hlast.continues.start_eq.trans hgrown.continues.start_eq }
  success_eq := hlast.success_eq.trans hgrown.success_eq
  value_eq := hlast.value_eq.trans hgrown.value_eq
  earlier := hgrown.earlier.trans hlast.earlier

namespace ChangesBy

variable {change next : Phrase Value → Phrase Value} {first second matched : Bool}

theorem refl (matched : Bool) : ChangesBy (fun phrase : Phrase Value => phrase) matched where
  extends_self phrase := ⟨.refl phrase, rfl, rfl, List.prefix_refl _⟩
  failure_only _ phrase := phrase.eta.symm

/-- The second change decides; when it fails, the first one may not have added anything. -/
theorem comp (hchange : ChangesBy change first) (hnext : ChangesBy next second)
    (hfailed : second = false → first = false) :
    ChangesBy (fun phrase => next (change phrase)) second where
  extends_self phrase := (hnext.extends_self _).trans (hchange.extends_self phrase)
  failure_only hsecond phrase := by
    have hlast := hnext.failure_only hsecond (change phrase)
    rw [hchange.failure_only (hfailed hsecond) phrase] at hlast ⊢
    exact hlast

theorem toMatched (hchange : ChangesBy change matched) : ChangesBy change true where
  extends_self := hchange.extends_self
  failure_only := by
    intro hfailed
    contradiction

theorem absorb (use : PhraseUse) (part : Phrase Value) (cursor : Nat) :
    ChangesBy (fun phrase => phrase.absorb use part cursor) part.success where
  extends_self phrase := by
    refine ⟨.absorb (.refl phrase) use part cursor, ?_, ?_, ?_⟩ <;>
      cases hsuccess : part.success <;> cases use <;>
      simp [Phrase.absorb, attach, splice, inheritFailure, hsuccess]
  failure_only hfailed phrase := by
    simp only [Phrase.absorb, hfailed, Bool.false_eq_true, if_false, inheritFailure]

/-- An effect that has failed hands over no parts. -/
theorem applyTo {effect : Effect Value}
    (hfailed : effect.matched = false → effect.last = none ∧ effect.parts = []) :
    ChangesBy effect.applyTo effect.matched where
  extends_self phrase := ⟨.applyTo (.refl phrase) effect, rfl, rfl, List.prefix_append _ _⟩
  failure_only hmatched phrase := by
    obtain ⟨hlast, hparts⟩ := hfailed hmatched
    simp only [Effect.applyTo, hlast, hparts, Option.getD_none, List.append_nil]

end ChangesBy

end Phrase

/-! ## The core -/

namespace Core

/-- One core lies ahead of another by what has matched or failed in between. -/
structure Advances (before : Core Value) (matched : Bool) (after : Core Value) : Prop where
  position_le : before.position ≤ after.position
  position_eq : matched = false → after.position = before.position
  stack_eq : ∃ change, Phrase.ChangesBy change matched ∧
    after.stack = before.stack.changeInnermost change

namespace Advances

variable {before between after core : Core Value} {matched first second : Bool}

theorem refl (core : Core Value) (matched : Bool) : core.Advances matched core where
  position_le := Nat.le_refl _
  position_eq := fun _ => rfl
  stack_eq :=
    ⟨_, .refl matched, (Stack.changeInnermost_of_forall_eq (fun _ => rfl) core.stack).symm⟩

/-- One after the other; the second decides, and when it fails, the first may not have
matched. -/
theorem trans (hfirst : before.Advances first between)
    (hsecond : between.Advances second after) (hfailed : second = false → first = false) :
    before.Advances second after where
  position_le := hfirst.position_le.trans hsecond.position_le
  position_eq := fun hsame =>
    (hsecond.position_eq hsame).trans (hfirst.position_eq (hfailed hsame))
  stack_eq := by
    obtain ⟨change, hchange, hbetween⟩ := hfirst.stack_eq
    obtain ⟨next, hnext, hafter⟩ := hsecond.stack_eq
    refine ⟨_, hchange.comp hnext hfailed, ?_⟩
    rw [hafter, hbetween, Stack.changeInnermost_comp]

/-- A failure does no more than a match might. -/
theorem toMatched (hadvances : before.Advances matched after) :
    before.Advances true after where
  position_le := hadvances.position_le
  position_eq := by
    intro hfailed
    contradiction
  stack_eq := by
    obtain ⟨change, hchange, hstack⟩ := hadvances.stack_eq
    exact ⟨change, hchange.toMatched, hstack⟩

/-- A terminal advances if it matches. -/
theorem terminal {primitive : Primitive} {attempt : Attempt Value} {effect : Effect Value}
    (hattempt : primitive.attempt? setting.source = some attempt)
    (heffect : attempt core.position = .ok effect) :
    core.Advances effect.matched (core.undergo effect) := by
  have hcases := Primitive.effect_cases hattempt heffect
  have hstop : core.position ≤ effect.stop ∧
      (effect.matched = false → effect.stop = core.position) := by
    rcases hcases with rfl | ⟨_, rfl⟩ | ⟨length, _, rfl⟩ <;>
      simp [Effect.passing, Effect.failing, Effect.taking]
  refine ⟨hstop.1, hstop.2, effect.applyTo, .applyTo ?_, rfl⟩
  intro hfailed
  rcases hcases with rfl | ⟨_, rfl⟩ | ⟨length, _, rfl⟩
  · contradiction
  · exact ⟨rfl, rfl⟩
  · contradiction

/-- Taking a result that a table has offered advances to its end, if it has matched. -/
theorem taking {part : Phrase Value} (use : PhraseUse) (tables : List (MemoTable Value))
    (hstop : part.success = true → core.position ≤ part.stop) :
    core.Advances part.success
      (Core.taking { core with candidate := some part, tables := tables } use part) := by
  refine ⟨?_, ?_, _, .absorb use part (part.landing use core.position), rfl⟩
  · simp only [Core.taking, Phrase.landing]
    split
    case isTrue hmoves => exact hstop (Bool.and_eq_true_iff.mp hmoves).1
    case isFalse => exact Nat.le_refl _
  · intro hfailed
    simp only [Core.taking, Phrase.landing, hfailed, Bool.false_and, Bool.false_eq_true, if_false]

/-- What advances inside a phrase that has been opened leaves it open where it starts. -/
theorem stack_of_opening {name diagnosis : String} {ticket : Option Ticket}
    {tables : List (MemoTable Value)}
    (hbody : (before.opening name diagnosis ticket tables).Advances matched between) :
    ∃ phrase : Phrase Value, phrase.start = before.position ∧
      between.stack = (before.stack.1, ⟨phrase, ticket⟩ :: before.stack.2) := by
  obtain ⟨change, hchange, hstack⟩ := hbody.stack_eq
  refine ⟨change (.opened name diagnosis before.position), ?_, hstack⟩
  exact (hchange.extends_self _).continues.start_eq

/-- A phrase is opened, what is inside advances, and the phrase is closed: for the phrase
around it this is an advance if the closing succeeds. -/
theorem closed {name diagnosis : String} {ticket : Option Ticket}
    {tables : List (MemoTable Value)} {closing : Closing} {answer : Option Bool}
    (hbody : (before.opening name diagnosis ticket tables).Advances matched between)
    (hclose : Core.Step setting (.close closing) between answer after) :
    answer = some closing.succeeds ∧ before.Advances closing.succeeds after := by
  obtain ⟨opened, hstart, hstack⟩ := hbody.stack_of_opening
  obtain ⟨phrase, part, _, outer, hframes, hpart, rfl, rfl⟩ := hclose.eq_of_close
  rw [hstack] at hframes ⊢
  obtain ⟨hframe, rfl⟩ := List.cons.inj hframes
  obtain ⟨rfl, rfl⟩ := Frame.mk.inj hframe
  have hstop := Closing.stop_of_settled? hpart
  rw [hstart] at hstop
  refine ⟨rfl, ?_, ?_, _, ?_, rfl⟩
  · rw [hstop]
    split
    · exact hbody.position_le
    · exact Nat.le_refl _
  · intro hfailed
    rw [hstop, if_neg]
    cases closing <;> simp_all [Closing.succeeds, Closing.consumes]
  · rw [← Closing.success_of_settled? hpart]
    exact .absorb closing.use part part.stop

end Advances

/-! ## Results that lie ahead -/

/-- There are as many tables as there have to be, and no result in them ends before the
position for which it is kept. -/
structure Forward (count : Nat) (core : Core Value) : Prop where
  count_le : count ≤ core.tables.length
  ledger : Ledger (fun _ start part => part.success = true → start ≤ part.stop)
    core.stack.2 core.tables

variable {count : Nat} {core after : Core Value} {primitive : Primitive} {answer : Option Bool}

/-- A phrase may be closed when the cursor has not gone back behind its start; then all
results go on lying ahead. -/
theorem Step.forward (hstep : Step setting primitive core answer after)
    (hcore : core.Forward count)
    (hclosed : ∀ closing, primitive = .close closing →
      ∀ frame ∈ core.stack.2.head?, frame.phrase.start ≤ core.position) :
    after.Forward count := by
  cases hstep with
  | addTable _ name diagnosis =>
      refine ⟨?_, hcore.ledger.append_empty (MemoTable.occupied_empty _ _ _)⟩
      rw [List.length_append]
      exact Nat.le_add_right_of_le hcore.count_le
  | begin => exact ⟨hcore.count_le, hcore.ledger.push (by simp)⟩
  | @close _ closing phrase part ticket outer hframes hpart =>
      have hledger := hcore.ledger
      rw [hframes] at hledger
      have hstart : phrase.start ≤ core.position := by
        apply hclosed closing rfl ⟨phrase, ticket⟩
        rw [hframes]
        exact rfl
      constructor
      · rw [Machine.length_filled]
        exact hcore.count_le
      · apply Ledger.changeInnermost
        · apply hledger.filled
          intro _ _ _
          rw [Closing.stop_of_settled? hpart]
          split
          · exact hstart
          · exact Nat.le_refl _
        · exact fun phrase => Phrase.start_absorb _ _ phrase _
  | terminal => exact ⟨hcore.count_le, hcore.ledger.changeInnermost fun _ => rfl⟩
  | hit _ _ htable | pending _ _ htable =>
      refine ⟨?_, hcore.ledger.find htable _⟩
      rw [List.length_set]
      exact hcore.count_le
  | miss _ _ htable =>
      refine ⟨?_, (hcore.ledger.save htable _).push ?_⟩
      · rw [opening, List.length_set]
        exact hcore.count_le
      · intro ticket hticket
        exact hcore.ledger.reservedAt_save htable hticket
  | reuse =>
      exact ⟨hcore.count_le,
        hcore.ledger.changeInnermost fun phrase => Phrase.start_absorb _ _ phrase _⟩

end Core

end Packrat
