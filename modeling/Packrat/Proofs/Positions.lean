import Packrat.Proofs.Course
import Packrat.Proofs.Ledger
import Packrat.Proofs.ParseAnswer

/-!
# Positions inside the source

No primitive takes the cursor beyond the end of the source, and every phrase begins, ends and
fails at positions where the cursor has been.  So all positions that a machine keeps can be
described in a report, in whatever order its primitives have been called.
-/

namespace Packrat

variable {Value : Type} {setting : Setting Value} {source : Source} {length : Nat}

/-! ## Failures -/

namespace Failure

theorem reach_record_le {failure : Failure} {cursor : Nat} (hfailure : failure.reach ≤ length + 1)
    (hcursor : cursor ≤ length) (label : String) :
    (failure.record label cursor).reach ≤ length + 1 := by
  rw [record]
  split
  · exact hfailure
  · split
    · exact Nat.succ_le_succ hcursor
    · exact hfailure

theorem reach_merge_le {failure other : Failure} (hfailure : failure.reach ≤ length + 1)
    (hother : other.reach ≤ length + 1) (cursor : Nat) :
    (failure.merge other cursor).reach ≤ length + 1 := by
  rw [merge]
  split
  · exact Nat.zero_le _
  · split
    · exact hfailure
    · split
      · exact hother
      · exact hfailure

end Failure

/-! ## Phrases -/

/-- A phrase, and every phrase below it, lies in the first `length` characters, and so do the
failures that are recorded in it. -/
inductive Phrase.Within (length : Nat) : Phrase Value → Prop where
  | intro {phrase : Phrase Value} (hstart : phrase.start ≤ length) (hstop : phrase.stop ≤ length)
      (hfailure : phrase.failure.reach ≤ length + 1)
      (hchildren : ∀ child ∈ phrase.children, child.Within length) : phrase.Within length

namespace Phrase.Within

variable {phrase part : Phrase Value} {cursor : Nat}

theorem stop_le (hphrase : phrase.Within length) : phrase.stop ≤ length := by
  cases hphrase
  assumption

theorem reach_le (hphrase : phrase.Within length) : phrase.failure.reach ≤ length + 1 := by
  cases hphrase
  assumption

theorem children (hphrase : phrase.Within length) :
    ∀ child ∈ phrase.children, child.Within length := by
  cases hphrase
  assumption

theorem opened (name diagnosis : String) {start : Nat} (hstart : start ≤ length) :
    (Phrase.opened name diagnosis start : Phrase Value).Within length :=
  .intro hstart hstart (Nat.zero_le _) (List.forall_mem_nil _)

theorem ofTerminal {start stop : Nat} (hstart : start ≤ length) (hstop : stop ≤ length) :
    (Phrase.ofTerminal start stop : Phrase Value).Within length :=
  .intro hstart hstop (Nat.zero_le _) (List.forall_mem_nil _)

theorem absorb (hphrase : phrase.Within length) (hpart : part.Within length)
    (hcursor : cursor ≤ length) (use : PhraseUse) :
    (phrase.absorb use part cursor).Within length := by
  obtain ⟨hstart, hstop, hfailure, hchildren⟩ := hphrase
  have hmerged := Failure.reach_merge_le hfailure hpart.reach_le cursor
  cases hsuccess : part.success with
  | false =>
      simp only [Phrase.absorb, hsuccess, Bool.false_eq_true, if_false]
      exact .intro hstart hstop hmerged hchildren
  | true =>
      simp only [Phrase.absorb, hsuccess, if_true]
      cases use with
      | rule =>
          refine .intro hstart hcursor hmerged ?_
          exact List.forall_mem_append.mpr ⟨hchildren, List.forall_mem_singleton.mpr hpart⟩
      | inner =>
          refine .intro hstart hcursor hmerged ?_
          exact List.forall_mem_append.mpr ⟨hchildren, hpart.children⟩
      | predicate => exact .intro hstart hstop hfailure hchildren

/-- What a closed phrase records lies where it did or at the start of the phrase. -/
theorem reach_failureOf_le (hphrase : phrase.Within length) (closing : Closing) :
    (closing.failureOf phrase).reach ≤ length + 1 := by
  obtain ⟨hstart, _, hfailure, _⟩ := hphrase
  have hself : phrase.start + 1 ≤ length + 1 := Nat.succ_le_succ hstart
  cases closing with
  | accept | acceptInner | rejectInner => exact hfailure
  | reject =>
      rw [Closing.failureOf]
      split
      · exact hself
      · exact hfailure
  | acceptAnd | acceptNot => exact Nat.zero_le _
  | rejectAnd | rejectNot => exact hself

/-- A phrase is closed at the cursor or at its start. -/
theorem of_settled? {closing : Closing} {semantics : Semantics Value}
    (hphrase : phrase.Within length) (hcursor : cursor ≤ length)
    (hpart : closing.settled? source semantics cursor phrase = .ok part) :
    part.Within length := by
  have hreach := hphrase.reach_failureOf_le closing
  obtain ⟨hstart, _, _, hchildren⟩ := hphrase
  rw [Closing.eq_of_settled? hpart]
  refine .intro hstart ?_ hreach ?_
  · simp only [Closing.settle]
    split
    · exact hcursor
    · exact hstart
  · simp only [Closing.settle]
    split
    · exact hchildren
    · exact List.forall_mem_nil _

/-- What a terminal takes or records lies inside the source. -/
theorem applyTo {primitive : Primitive} {attempt : Attempt Value} {effect : Effect Value}
    (hattempt : primitive.attempt? source = some attempt)
    (heffect : attempt cursor = .ok effect) (hcursor : cursor ≤ source.length)
    (hphrase : phrase.Within source.length) :
    effect.stop ≤ source.length ∧ (effect.applyTo phrase).Within source.length := by
  obtain ⟨hstart, hstop, hfailure, hchildren⟩ := hphrase
  rcases Primitive.effect_cases hattempt heffect with rfl | ⟨label, rfl⟩ | ⟨taken, htaken, rfl⟩
  · rw [Effect.applyTo_passing]
    exact ⟨hcursor, .intro hstart hstop hfailure hchildren⟩
  · rw [Effect.applyTo_failing]
    exact ⟨hcursor, .intro hstart hstop (Failure.reach_record_le hfailure hcursor label)
      hchildren⟩
  · have hend : cursor + taken ≤ source.length := by omega
    rw [Effect.applyTo_taking]
    refine ⟨hend, .intro hstart hend hfailure ?_⟩
    exact List.forall_mem_append.mpr
      ⟨hchildren, List.forall_mem_singleton.mpr (.ofTerminal hcursor hend)⟩

end Phrase.Within

/-! ## The core -/

namespace Core

/-- The cursor lies in the first `length` characters, and so does every phrase that the core
keeps. -/
structure Within (length : Nat) (core : Core Value) : Prop where
  position_le : core.position ≤ length
  top : core.stack.1.Within length
  frames : ∀ frame ∈ core.stack.2, frame.phrase.Within length
  candidate : ∀ part, core.candidate = some part → part.Within length
  ledger : Ledger (fun _ _ part => part.Within length) core.stack.2 core.tables

variable {core after : Core Value} {primitive : Primitive} {answer : Option Bool}
variable {tables : List (MemoTable Value)} {position : Nat}

/-- The innermost phrase is changed, and the cursor is moved. -/
theorem Within.changeInnermost (hcore : core.Within length)
    {change : Phrase Value → Phrase Value} (hposition : position ≤ length)
    (hstart : ∀ phrase, (change phrase).start = phrase.start)
    (hchange : ∀ phrase, phrase.Within length → (change phrase).Within length) :
    { core with
      position := position
      stack := core.stack.changeInnermost change : Core Value }.Within length := by
  obtain ⟨_, ⟨top, frames⟩, candidate, tables⟩ := core
  have hledger : Ledger (fun _ _ part => part.Within length)
      (Stack.changeInnermost change (top, frames)).2 tables :=
    hcore.ledger.changeInnermost hstart
  cases frames with
  | nil => exact ⟨hposition, hchange top hcore.top, hcore.frames, hcore.candidate, hledger⟩
  | cons frame outer =>
      obtain ⟨hframe, houter⟩ := List.forall_mem_cons.mp hcore.frames
      refine ⟨hposition, hcore.top, ?_, hcore.candidate, hledger⟩
      exact List.forall_mem_cons.mpr ⟨hchange frame.phrase hframe, houter⟩

/-- A phrase is opened at the cursor. -/
theorem Within.opening (hcore : core.Within length) (name diagnosis : String)
    {ticket : Option Ticket}
    (hledger : Ledger (fun _ _ part => part.Within length) core.stack.2 tables)
    (hticket : ∀ given, ticket = some given → given.ReservedAt tables core.position) :
    (core.opening name diagnosis ticket tables).Within length where
  position_le := hcore.position_le
  top := hcore.top
  frames := List.forall_mem_cons.mpr ⟨.opened name diagnosis hcore.position_le, hcore.frames⟩
  candidate := hcore.candidate
  ledger := hledger.push hticket

/-- No step leads out of the source. -/
theorem Step.within (hstep : Step setting primitive core answer after)
    (hcore : core.Within setting.source.length) : after.Within setting.source.length := by
  cases hstep with
  | addTable _ name diagnosis =>
      exact ⟨hcore.position_le, hcore.top, hcore.frames, hcore.candidate,
        hcore.ledger.append_empty (MemoTable.occupied_empty name diagnosis _)⟩
  | begin _ name diagnosis => exact hcore.opening name diagnosis hcore.ledger (by simp)
  | @close _ closing phrase part ticket outer hframes hpart =>
      obtain ⟨hposition, htop, hopen, hcandidate, hledger⟩ := hcore
      rw [hframes] at hopen hledger
      obtain ⟨hphrase, houter⟩ := List.forall_mem_cons.mp hopen
      have hclosed := hphrase.of_settled? hposition hpart
      have hpopped : Within setting.source.length
          ⟨core.position, (core.stack.1, outer), core.candidate,
            Machine.filled ticket part core.tables⟩ :=
        ⟨hposition, htop, houter, hcandidate, hledger.filled fun _ _ => hclosed⟩
      exact hpopped.changeInnermost hclosed.stop_le
        (fun phrase => Phrase.start_absorb _ _ phrase _)
        fun _ hphrase => hphrase.absorb hclosed hclosed.stop_le _
  | @terminal _ _ attempt effect hattempt heffect =>
      have hinside := fun (phrase : Phrase Value) (hphrase : phrase.Within setting.source.length) =>
        hphrase.applyTo hattempt heffect hcore.position_le
      exact hcore.changeInnermost (hinside _ hcore.top).1 (fun _ => rfl)
        fun phrase hphrase => (hinside phrase hphrase).2
  | hit _ _ htable hlookup =>
      refine ⟨hcore.position_le, hcore.top, hcore.frames, ?_, hcore.ledger.find htable _⟩
      rintro part ⟨⟩
      exact (hcore.ledger.holds _ _ htable).good_of_lookup hlookup
  | pending _ _ htable =>
      refine ⟨hcore.position_le, hcore.top, hcore.frames, ?_, hcore.ledger.find htable _⟩
      rintro part ⟨⟩
      exact .opened _ _ hcore.position_le
  | miss _ _ htable =>
      exact hcore.opening _ _ (hcore.ledger.save htable _)
        fun ticket hticket => hcore.ledger.reservedAt_save htable hticket
  | @reuse _ use part hcandidate =>
      have hpart := hcore.candidate part hcandidate
      have hlanding : part.landing use core.position ≤ setting.source.length := by
        rw [Phrase.landing]
        split
        · exact hpart.stop_le
        · exact hcore.position_le
      have htaken : Within setting.source.length { core with candidate := none } :=
        ⟨hcore.position_le, hcore.top, hcore.frames, by simp, hcore.ledger⟩
      exact htaken.changeInnermost hlanding (fun phrase => Phrase.start_absorb _ _ phrase _)
        fun _ hphrase => hphrase.absorb hpart hlanding use

end Core

/-- However many calls there are, they stay inside the source. -/
theorem Course.within {before after : Machine Value} {calls : List (Call Value)}
    (hcourse : Course setting before calls after)
    (hbefore : before.core.Within setting.source.length) :
    after.core.Within setting.source.length :=
  hcourse.keeps (fun _ _ _ hstep hcore => hstep.within hcore) hbefore

/-! ## Reports -/

namespace Machine

variable {machine : Machine Value}

/-- Where a parse begins. -/
theorem start_within (setting : Setting Value) (machine : Machine Value) :
    (machine.start setting).core.Within setting.source.length where
  position_le := Nat.zero_le _
  top := .opened "" "" (Nat.zero_le _)
  frames := List.forall_mem_nil _
  candidate := by simp [core, start, reset, initial, noteEvent, note]
  ledger := .of_occupied_eq_nil fun _ => occupied_start

/-- A failed parse can always be reported. -/
theorem exists_report? (hmachine : machine.core.Within setting.source.length) :
    ∃ error, report? setting machine.top machine.position = some error := by
  rw [report?]
  cases hfailure : machine.top.failure.position with
  | none => exact ⟨_, Source.at?_eq hmachine.position_le []⟩
  | some offset =>
      have hreach : machine.top.failure.reach ≤ setting.source.length + 1 := hmachine.top.reach_le
      rw [Failure.reach, hfailure] at hreach
      exact ⟨_, Source.ofFailure?_eq hfailure (Nat.le_of_succ_le_succ hreach)⟩

/-- With nothing left open, a parse always has an answer. -/
theorem exists_conclude (hmachine : machine.core.Within setting.source.length)
    (hframes : machine.frames = []) (matched : Bool) :
    ∃ answer after, conclude setting matched machine = .finished answer after := by
  obtain ⟨answer, hanswer⟩ : ∃ answer,
      answer? setting matched machine.top machine.position = some answer := by
    cases matched with
    | true => exact ⟨_, rfl⟩
    | false =>
        obtain ⟨error, hreport⟩ := exists_report? hmachine
        exact ⟨.error error, by simp [answer?, hreport]⟩
  obtain ⟨after, hconclude, _⟩ := conclude_eq setting hframes matched
  rw [hanswer] at hconclude
  exact ⟨answer, after, hconclude⟩

end Machine

/-- A root that leaves nothing open lets the parse end. -/
theorem Grammar.exists_parse_of_root {grammar : Grammar} {machine left : Machine Value}
    {steps : Nat} {matched : Bool}
    (hroot : grammar.root setting steps (machine.start setting) = .finished matched left)
    (hframes : left.frames = []) :
    ∃ answer after, grammar.parse setting steps machine = .finished answer after := by
  have hinside : left.core.Within setting.source.length := by
    rw [root_eq_run] at hroot
    exact (Procedure.course_of_finished hroot).within (Machine.start_within setting machine)
  obtain ⟨answer, after, hconclude⟩ := Machine.exists_conclude hinside hframes matched
  refine ⟨answer, after, ?_⟩
  rw [parse, Machine.parse, Run.andThen_of_finished hroot]
  exact hconclude

end Packrat
