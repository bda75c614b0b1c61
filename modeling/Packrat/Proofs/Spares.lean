import Packrat.Proofs.ActionRuns
import Packrat.Proofs.MemoTransparency

/-!
# Procedures side by side

A procedure with memory and one without are run on two machines that are at the same place.
If both follow the same attempt, they stay at the same place throughout, and the work that
each adds can be compared.  The comparison is kept by the composition of procedures, and by
phrases that both open.
-/

namespace Packrat

variable {Value : Type} {grammar : Grammar} {setting : Setting Value} {name : String}
variable {steps : Nat}

/-- Between the first two moments no more has been added than between the other two; a result
that takes the place of a body counts like a call. -/
structure Work.AddsNoMore (before after bare bareAfter : Work) : Prop where
  calls : after.calls + after.reused + bare.calls ≤
    before.calls + before.reused + bareAfter.calls
  succeeded : after.succeeded + bare.succeeded ≤ before.succeeded + bareAfter.succeeded
  failed : after.failed + bare.failed ≤ before.failed + bareAfter.failed

namespace Work.AddsNoMore

variable {before between after bare bareBetween bareAfter : Work}

theorem refl (work bare : Work) : work.AddsNoMore work bare bare :=
  ⟨Nat.le_refl _, Nat.le_refl _, Nat.le_refl _⟩

theorem trans (hfirst : before.AddsNoMore between bare bareBetween)
    (hsecond : between.AddsNoMore after bareBetween bareAfter) :
    before.AddsNoMore after bare bareAfter := by
  obtain ⟨hcalls, hsucceeded, hfailed⟩ := hfirst
  obtain ⟨hcallsAfter, hsucceededAfter, hfailedAfter⟩ := hsecond
  exact ⟨by omega, by omega, by omega⟩

end Work.AddsNoMore

/-- The setting of the parse that remembers nothing. -/
def Setting.withoutMemory (setting : Setting Value) : Setting Value :=
  { setting with capacity := .none }

theorem Run.Realizes.terminal {regime : Regime Value} {primitive : Primitive}
    {attempt : Attempt Value} (hattempt : primitive.attempt? setting.source = some attempt) :
    (Grammar.test setting primitive).Realizes regime attempt := by
  cases primitive with
  | next terminal =>
      obtain rfl := Option.some.inj hattempt
      rw [Grammar.test_next]
      exact .of_core_eq (Machine.next_eq setting terminal)
  | ahead terminal =>
      obtain rfl := Option.some.inj hattempt
      rw [Grammar.test_ahead]
      exact .of_core_eq (Machine.ahead_eq setting terminal)
  | aheadNot terminal =>
      obtain rfl := Option.some.inj hattempt
      rw [Grammar.test_aheadNot]
      exact .of_core_eq (Machine.aheadNot_eq setting terminal)
  | _ => simp [Primitive.attempt?] at hattempt

/-- Two machines at the same place, one with tables in order and one that remembers nothing. -/
structure Machine.Paired (grammar : Grammar) (setting : Setting Value) (steps : Nat)
    (machine bare : Machine Value) : Prop where
  remembers : grammar.Remembers setting.source setting.semantics steps machine.tables
  unmemoized : (Regime.unmemoized grammar).Ready bare.tables
  position : bare.position = machine.position

/-- The procedure with memory and the one without both follow the attempt, and the first adds
no more to the work than the second. -/
structure Procedure.Spares (grammar : Grammar) (setting : Setting Value) (name : String)
    (steps : Nat) (memoizing plain : Procedure Value) (attempt : Attempt Value) : Prop where
  realizes : (memoizing.run setting).Realizes
    (.remembering grammar setting.source setting.semantics steps) attempt
  plainly : (plain.run setting.withoutMemory).Realizes (.unmemoized grammar) attempt
  spares : ∀ machine bare, machine.Paired grammar setting steps bare →
    ∀ effect, attempt machine.position = .ok effect → ∀ after bareAfter,
      memoizing.run setting machine = .finished effect.matched after →
      plain.run setting.withoutMemory bare = .finished effect.matched bareAfter →
        (machine.work name).AddsNoMore (after.work name) (bare.work name)
          (bareAfter.work name)

/-- Both procedures have finished with the effect of the attempt. -/
structure Procedure.Ends (grammar : Grammar) (setting : Setting Value) (name : String)
    (steps : Nat) (memoizing plain : Procedure Value) (machine bare : Machine Value)
    (effect : Effect Value) (after bareAfter : Machine Value) : Prop where
  finished : memoizing.run setting machine = .finished effect.matched after
  plainFinished : plain.run setting.withoutMemory bare = .finished effect.matched bareAfter
  undergoes : machine.Undergoes after effect
  plainUndergoes : bare.Undergoes bareAfter effect
  paired : after.Paired grammar setting steps bareAfter
  work : (machine.work name).AddsNoMore (after.work name) (bare.work name)
    (bareAfter.work name)

namespace Procedure.Spares

variable {memoizing plain : Procedure Value} {attempt : Attempt Value}
variable {machine bare : Machine Value} {effect : Effect Value}

theorem exists_ends (hspares : memoizing.Spares grammar setting name steps plain attempt)
    (hpaired : machine.Paired grammar setting steps bare)
    (heffect : attempt machine.position = .ok effect) :
    ∃ after bareAfter,
      memoizing.Ends grammar setting name steps plain machine bare effect after bareAfter := by
  have hrun := hspares.realizes machine hpaired.remembers
  rw [heffect] at hrun
  obtain ⟨after, hfinished, hundergoes, hkept⟩ := hrun
  have hplain := hspares.plainly bare hpaired.unmemoized
  rw [hpaired.position, heffect] at hplain
  obtain ⟨bareAfter, hbareFinished, hbareUndergoes, hbareKept⟩ := hplain
  have hafter : after.Paired grammar setting steps bareAfter := by
    refine ⟨hpaired.remembers.of_enriched hkept, ?_, ?_⟩
    · exact (Regime.unmemoized grammar).ready_of_kept hpaired.unmemoized hbareKept
    · rw [hundergoes.position, hbareUndergoes.position]
  exact ⟨after, bareAfter, hfinished, hbareFinished, hundergoes, hbareUndergoes, hafter,
    hspares.spares machine bare hpaired effect heffect after bareAfter hfinished
      hbareFinished⟩

/-- Tables that are in order for more steps are in order for fewer. -/
theorem mono (hspares : memoizing.Spares grammar setting name steps plain attempt) {more : Nat}
    (hsteps : steps ≤ more) :
    memoizing.Spares grammar setting name more plain attempt where
  realizes machine hready := hspares.realizes machine (hready.mono hsteps)
  plainly := hspares.plainly
  spares machine bare hpaired :=
    hspares.spares machine bare
      ⟨hpaired.remembers.mono hsteps, hpaired.unmemoized, hpaired.position⟩

theorem done (matched : Bool) :
    (Procedure.done matched).Spares grammar setting name steps (.done matched)
      (.done matched) where
  realizes := .done matched
  plainly := .done matched
  spares machine bare _ effect _ after bareAfter hfinished hplain := by
    obtain ⟨_, rfl⟩ := Outcome.finished.inj hfinished
    obtain ⟨_, rfl⟩ := Outcome.finished.inj hplain
    exact .refl _ _

theorem fault (cause : Fault) :
    (Procedure.fault cause).Spares grammar setting name steps (.fault cause)
      (.fault cause) where
  realizes := .fault cause
  plainly := .fault cause
  spares machine bare _ effect heffect := by contradiction

theorem andThen {next plainNext : Bool → Procedure Value} {nextAttempt : Bool → Attempt Value}
    (hfirst : memoizing.Spares grammar setting name steps plain attempt)
    (hnext : ∀ matched, (next matched).Spares grammar setting name steps (plainNext matched)
      (nextAttempt matched)) :
    (memoizing.andThen next).Spares grammar setting name steps (plain.andThen plainNext)
      (attempt.andThen nextAttempt) where
  realizes := by
    rw [run_andThen]
    exact hfirst.realizes.andThen fun matched => (hnext matched).realizes
  plainly := by
    rw [run_andThen]
    exact hfirst.plainly.andThen fun matched => (hnext matched).plainly
  spares machine bare hpaired effect heffect after bareAfter hfinished hplain := by
    obtain ⟨first, second, hattempt, hsecond, rfl⟩ := Attempt.andThen_eq_ok_iff.mp heffect
    obtain ⟨between, bareBetween, hends⟩ := hfirst.exists_ends hpaired hattempt
    rw [run_andThen, Run.andThen_of_finished hends.finished] at hfinished
    rw [run_andThen, Run.andThen_of_finished hends.plainFinished] at hplain
    rw [← hends.undergoes.position] at hsecond
    exact hends.work.trans ((hnext first.matched).spares between bareBetween hends.paired
      second hsecond after bareAfter hfinished hplain)

theorem ite {condition : Prop} [Decidable condition] {other plainOther : Procedure Value}
    {otherAttempt : Attempt Value}
    (hspares : memoizing.Spares grammar setting name steps plain attempt)
    (hother : other.Spares grammar setting name steps plainOther otherAttempt) :
    (if condition then memoizing else other).Spares grammar setting name steps
      (if condition then plain else plainOther)
      (if condition then attempt else otherAttempt) := by
  split
  · exact hspares
  · exact hother

theorem all {Item : Type} {memoizing plain : Item → Procedure Value}
    {attempt : Item → Attempt Value} (items : List Item)
    (hitem : ∀ item ∈ items,
      (memoizing item).Spares grammar setting name steps (plain item) (attempt item)) :
    (Procedure.all (items.map memoizing)).Spares grammar setting name steps
      (.all (items.map plain)) (.all (items.map attempt)) := by
  induction items with
  | nil => exact done true
  | cons item rest ih =>
      obtain ⟨hfirst, hrest⟩ := List.forall_mem_cons.mp hitem
      exact hfirst.andThen fun _ => .ite (ih hrest) (done false)

theorem any {Item : Type} {memoizing plain : Item → Procedure Value}
    {attempt : Item → Attempt Value} (items : List Item)
    (hitem : ∀ item ∈ items,
      (memoizing item).Spares grammar setting name steps (plain item) (attempt item)) :
    (Procedure.any (items.map memoizing)).Spares grammar setting name steps
      (.any (items.map plain)) (.any (items.map attempt)) := by
  induction items with
  | nil => exact done false
  | cons item rest ih =>
      obtain ⟨hfirst, hrest⟩ := List.forall_mem_cons.mp hitem
      exact hfirst.andThen fun _ => .ite (done true) (ih hrest)

theorem ifAdvanced (start : Nat)
    (hagain : memoizing.Spares grammar setting name steps plain attempt) :
    (Procedure.ifAdvanced start memoizing).Spares grammar setting name steps
      (.ifAdvanced start plain) (.ifAdvanced start attempt) where
  realizes := by
    rw [run_ifAdvanced]
    exact .ifAdvanced start hagain.realizes
  plainly := by
    rw [run_ifAdvanced]
    exact .ifAdvanced start hagain.plainly
  spares machine bare hpaired effect heffect after bareAfter hfinished hplain := by
    simp only [Attempt.ifAdvanced] at heffect
    simp only [run_ifAdvanced, Grammar.ifAdvanced, Run.look, Run.andThen, hpaired.position]
      at hfinished hplain
    by_cases hstill : machine.position = start
    · rw [if_pos hstill] at heffect hfinished hplain
      exact (done true).spares machine bare hpaired effect heffect after bareAfter hfinished
        hplain
    · rw [if_neg hstill] at heffect hfinished hplain
      exact hagain.spares machine bare hpaired effect heffect after bareAfter hfinished hplain

theorem round {again plainAgain : Procedure Value} {againAttempt : Attempt Value}
    (hbody : memoizing.Spares grammar setting name steps plain attempt)
    (hagain : again.Spares grammar setting name steps plainAgain againAttempt) :
    (Procedure.round memoizing again).Spares grammar setting name steps
      (.round plain plainAgain) (.round attempt againAttempt) where
  realizes := by
    rw [run_round]
    exact .round hbody.realizes hagain.realizes
  plainly := by
    rw [run_round]
    exact .round hbody.plainly hagain.plainly
  spares machine bare hpaired effect heffect after bareAfter hfinished hplain := by
    have hrest : ∀ matched : Bool,
        (if matched then Procedure.ifAdvanced machine.position again
          else Procedure.done true).Spares grammar setting name steps
          (if matched then .ifAdvanced machine.position plainAgain else .done true)
          (if matched then .ifAdvanced machine.position againAttempt else .done true) := by
      intro matched
      exact .ite (hagain.ifAdvanced machine.position) (done true)
    have hplainRun : (plain.andThen fun matched =>
        if matched then .ifAdvanced machine.position plainAgain else .done true).run
          setting.withoutMemory bare = .finished effect.matched bareAfter := by
      rw [← hpaired.position]
      exact hplain
    exact (hbody.andThen hrest).spares machine bare hpaired effect heffect after bareAfter
      hfinished hplainRun

/-- A terminal takes its course unchanged, and is not counted. -/
theorem terminal {primitive : Primitive}
    (hattempt : primitive.attempt? setting.source = some attempt) :
    (Procedure.call primitive).Spares grammar setting name steps (.call primitive) attempt where
  realizes := by
    rw [run_call]
    exact .terminal hattempt
  plainly := by
    have hplain : primitive.attempt? setting.withoutMemory.source = some attempt := hattempt
    rw [run_call]
    exact .terminal hplain
  spares machine bare _ effect _ after bareAfter hfinished hplain := by
    have hbare : primitive.attempt? setting.withoutMemory.source = some attempt := hattempt
    rw [run_call] at hfinished hplain
    rw [Grammar.work_of_terminal hattempt hfinished, Grammar.work_of_terminal hbare hplain]
    exact .refl _ _

/-! ## Phrases -/

/-- Both machines close the phrase in the same way. -/
theorem closedAfter (hname : name ≠ "")
    (hbody : memoizing.Spares grammar setting name steps plain attempt)
    {opened bareOpened after bareAfter : Machine Value}
    (hpaired : opened.Paired grammar setting steps bareOpened) {enclosure : Enclosure}
    {phrase : Phrase Value} {ticket bareTicket : Option Ticket}
    {outer bareOuter : List (Frame Value)} {inside : Effect Value} {matched plainMatched : Bool}
    (hframes : opened.frames = ⟨phrase, ticket⟩ :: outer)
    (hbareFrames : bareOpened.frames = ⟨phrase, bareTicket⟩ :: bareOuter)
    (hinside : attempt opened.position = .ok inside)
    (hclosed : (Procedure.closedAfter enclosure memoizing).run setting opened =
      .finished matched after)
    (hplain : (Procedure.closedAfter enclosure plain).run setting.withoutMemory bareOpened =
      .finished plainMatched bareAfter) :
    (opened.work name).AddsNoMore (after.work name) (bareOpened.work name)
      (bareAfter.work name) := by
  obtain ⟨done, bareDone, hends⟩ := hbody.exists_ends hpaired hinside
  rw [Procedure.closedAfter, run_andThen, Run.andThen_of_finished hends.finished, run_call,
    Grammar.test_close] at hclosed
  rw [Procedure.closedAfter, run_andThen, Run.andThen_of_finished hends.plainFinished, run_call,
    Grammar.test_close] at hplain
  obtain ⟨_, hframesDone⟩ := hends.undergoes.of_frames_eq_cons hframes
  obtain ⟨_, hbareDone⟩ := hends.plainUndergoes.of_frames_eq_cons hbareFrames
  refine hends.work.trans ?_
  rw [Machine.work_close hname hframesDone hclosed, Machine.work_close hname hbareDone hplain]
  exact ⟨Nat.le_refl _, by simp only; omega, by simp only; omega⟩

theorem beginning (hname : name ≠ "") {enclosure : Enclosure} {label : TableLabel}
    (hbody : memoizing.Spares grammar setting name steps plain attempt) :
    (Procedure.beginning enclosure label memoizing).Spares grammar setting name steps
      (.beginning enclosure label plain)
      (.within setting.source setting.semantics enclosure (some label) attempt) where
  realizes := by
    rw [run_beginning]
    exact Grammar.beginning_realizes hbody.realizes
  plainly := by
    rw [run_beginning]
    exact Grammar.beginning_realizes hbody.plainly
  spares machine bare hpaired effect heffect after bareAfter hfinished hplain := by
    obtain ⟨other, inside, part, hlabel, hinside, _, _⟩ := Attempt.within_eq_ok_iff.mp heffect
    let opened := machine.begin label.name label.diagnosis none
    let bareOpened := bare.begin label.name label.diagnosis none
    have hopened : opened.Paired grammar setting steps bareOpened :=
      ⟨hpaired.remembers, hpaired.unmemoized, hpaired.position⟩
    have hbareFrames : bareOpened.frames =
        ⟨.opened label.name label.diagnosis machine.position, none⟩ :: bare.frames := by
      rw [← hpaired.position]
      rfl
    have hclosed := hbody.closedAfter hname hopened (rfl : opened.frames = _) hbareFrames
      hinside hfinished hplain
    refine .trans ?_ hclosed
    rw [Machine.work_begin hname, Machine.work_begin hname]
    exact ⟨by simp only; omega, Nat.le_refl _, Nat.le_refl _⟩

theorem remarked (title : String)
    (hspares : memoizing.Spares grammar setting name steps plain attempt) :
    (Procedure.remarked title memoizing).Spares grammar setting name steps
      (.remarked title plain) attempt where
  realizes := by
    rw [run_remarked]
    exact .remarked title hspares.realizes
  plainly := by
    rw [run_remarked]
    exact .remarked title hspares.plainly
  spares machine bare hpaired effect heffect after bareAfter hfinished hplain := by
    obtain ⟨between, hbetween, _, hwork⟩ := finished_of_remarked hfinished
    obtain ⟨bareBetween, hbareBetween, _, hbareWork⟩ := finished_of_remarked hplain
    rw [hwork, hbareWork]
    exact hspares.spares machine bare hpaired effect heffect between bareBetween hbetween
      hbareBetween

end Procedure.Spares

end Packrat
