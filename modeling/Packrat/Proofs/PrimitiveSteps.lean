import Packrat.Proofs.Core
import Packrat.Proofs.TerminalMeaning

/-!
# Steps of the machine

What the primitives do to the core of a machine is gathered in one relation.  An invariant
that every step keeps holds after any primitives whatever, in any order, so it is proved by
cases on the step.  A primitive that faults on its own leaves the machine as it is; only
an action that faults has popped its phrase by then.
-/

namespace Packrat

variable {Value : Type}

/-- What a primitive does that looks at the text alone. -/
def Primitive.attempt? (source : Source) : Primitive → Option (Attempt Value)
  | .next terminal => some (.next source terminal)
  | .ahead terminal => some (.ahead source terminal)
  | .aheadNot terminal => some (.aheadNot source terminal)
  | _ => none

/-- Looking at the text either holds, or fails, or takes characters of the text. -/
theorem Primitive.effect_cases {source : Source} {primitive : Primitive}
    {attempt : Attempt Value} {position : Nat} {effect : Effect Value}
    (hattempt : primitive.attempt? source = some attempt)
    (heffect : attempt position = .ok effect) :
    effect = .passing position ∨ (∃ label, effect = .failing label position) ∨
      ∃ length ≤ source.length - position, effect = .taking position (position + length) := by
  cases primitive with
  | next terminal =>
      obtain rfl := Option.some.inj hattempt
      rw [Attempt.next_eq_ok] at heffect
      obtain rfl := Except.ok.inj heffect
      cases hmatch : terminal.matchLength? source position with
      | none => exact .inr (.inl ⟨_, rfl⟩)
      | some length =>
          by_cases hend : terminal = .endOfText
          · simp [hend]
          · simp only [hend, if_false]
            exact .inr (.inr ⟨length, Terminal.matchLength?_le hmatch, rfl⟩)
  | ahead terminal =>
      obtain rfl := Option.some.inj hattempt
      rw [Attempt.ahead_eq_ok] at heffect
      obtain rfl := Except.ok.inj heffect
      cases terminal.matchLength? source position with
      | none => exact .inr (.inl ⟨_, rfl⟩)
      | some length => exact .inl rfl
  | aheadNot terminal =>
      obtain rfl := Option.some.inj hattempt
      rw [Attempt.aheadNot_eq_ok] at heffect
      obtain rfl := Except.ok.inj heffect
      cases terminal.matchLength? source position with
      | none => exact .inl rfl
      | some length => exact .inr (.inl ⟨_, rfl⟩)
  | addTable | begin | close | consult | reuse => simp [Primitive.attempt?] at hattempt

namespace Core

/-- The core after a phrase has been opened at the cursor. -/
def opening (core : Core Value) (name diagnosis : String) (ticket : Option Ticket)
    (tables : List (MemoTable Value)) : Core Value :=
  { core with
    stack := (core.stack.1, ⟨.opened name diagnosis core.position, ticket⟩ :: core.stack.2)
    tables := tables }

/-- The core after a result that was found has been taken. -/
def taking (core : Core Value) (use : PhraseUse) (part : Phrase Value) : Core Value :=
  let landing := part.landing use core.position
  { core with
    position := landing
    stack := core.stack.changeInnermost (·.absorb use part landing)
    candidate := none }

/-- A primitive can be performed: there is a phrase to close, a table to look into, or a
result to take. -/
def Permits (core : Core Value) : Primitive → Prop
  | .close _ => core.stack.2 ≠ []
  | .consult index _ => index < core.tables.length
  | .reuse _ => core.candidate ≠ none
  | _ => True

/-- A primitive leads from one core to another, with a result or without one. -/
inductive Step (setting : Setting Value) :
    Primitive → Core Value → Option Bool → Core Value → Prop
  | addTable (core : Core Value) (name diagnosis : String) :
      Step setting (.addTable name diagnosis) core none
        { core with
          tables := core.tables ++ [.empty name diagnosis setting.capacity.value] }
  | begin (core : Core Value) (name diagnosis : String) :
      Step setting (.begin name diagnosis) core none
        (core.opening name diagnosis none core.tables)
  | close (core : Core Value) {closing : Closing} {phrase part : Phrase Value}
      {ticket : Option Ticket} {outer : List (Frame Value)}
      (hframes : core.stack.2 = ⟨phrase, ticket⟩ :: outer)
      (hpart : closing.settled? setting.source setting.semantics core.position phrase =
        .ok part) :
      Step setting (.close closing) core (some closing.succeeds)
        ⟨part.stop,
          Stack.changeInnermost (·.absorb closing.use part part.stop) (core.stack.1, outer),
          core.candidate, Machine.filled ticket part core.tables⟩
  | terminal (core : Core Value) {primitive : Primitive} {attempt : Attempt Value}
      {effect : Effect Value} (hattempt : primitive.attempt? setting.source = some attempt)
      (heffect : attempt core.position = .ok effect) :
      Step setting primitive core (some effect.matched) (core.undergo effect)
  | hit (core : Core Value) {index : Nat} (inner : Bool) {table : MemoTable Value}
      {part : Phrase Value} (htable : core.tables[index]? = some table)
      (hlookup : table.lookup core.position = .hit part) :
      Step setting (.consult index inner) core (some true)
        { core with
          candidate := some part
          tables := core.tables.set index (table.find core.position).2 }
  | pending (core : Core Value) {index : Nat} (inner : Bool) {table : MemoTable Value}
      (htable : core.tables[index]? = some table)
      (hlookup : table.lookup core.position = .pending) :
      Step setting (.consult index inner) core (some true)
        { core with
          candidate :=
            some (.opened (if inner then "" else table.name) table.diagnosis core.position)
          tables := core.tables.set index (table.find core.position).2 }
  | miss (core : Core Value) {index : Nat} (inner : Bool) {table : MemoTable Value}
      (htable : core.tables[index]? = some table)
      (hlookup : table.lookup core.position = .miss) :
      Step setting (.consult index inner) core (some false)
        (core.opening (if inner then "" else table.name) table.diagnosis
          (((table.find core.position).2.save core.position).1.map
            fun reservation => ⟨index, reservation.serial⟩)
          (core.tables.set index ((table.find core.position).2.save core.position).2))
  | reuse (core : Core Value) (use : PhraseUse) {part : Phrase Value}
      (hcandidate : core.candidate = some part) :
      Step setting (.reuse use) core (some part.success) (core.taking use part)

variable {setting : Setting Value} {core core' : Core Value} {result : Option Bool}

theorem Step.eq_of_begin {name diagnosis : String}
    (hstep : Step setting (.begin name diagnosis) core result core') :
    core' = core.opening name diagnosis none core.tables := by
  cases hstep with
  | begin => rfl
  | terminal _ hattempt => simp [Primitive.attempt?] at hattempt

theorem Step.eq_of_close {closing : Closing}
    (hstep : Step setting (.close closing) core result core') :
    ∃ phrase part ticket outer, core.stack.2 = ⟨phrase, ticket⟩ :: outer ∧
      closing.settled? setting.source setting.semantics core.position phrase = .ok part ∧
        result = some closing.succeeds ∧
          core' =
            ⟨part.stop,
              Stack.changeInnermost (·.absorb closing.use part part.stop)
                (core.stack.1, outer),
              core.candidate, Machine.filled ticket part core.tables⟩ := by
  cases hstep with
  | close _ hframes hpart => exact ⟨_, _, _, _, hframes, hpart, rfl, rfl⟩
  | terminal _ hattempt => simp [Primitive.attempt?] at hattempt

theorem Step.eq_of_reuse {use : PhraseUse}
    (hstep : Step setting (.reuse use) core result core') :
    ∃ part, core.candidate = some part ∧ result = some part.success ∧
      core' = core.taking use part := by
  cases hstep with
  | reuse _ _ hcandidate => exact ⟨_, hcandidate, rfl, rfl⟩
  | terminal _ hattempt => simp [Primitive.attempt?] at hattempt

theorem Step.eq_of_attempt {primitive : Primitive} {attempt : Attempt Value}
    (hattempt : primitive.attempt? setting.source = some attempt)
    (hstep : Step setting primitive core result core') :
    ∃ effect, attempt core.position = .ok effect ∧ result = some effect.matched ∧
      core' = core.undergo effect := by
  cases hstep with
  | @terminal _ _ other effect hother heffect =>
      obtain rfl := Option.some.inj (hattempt.symm.trans hother)
      exact ⟨effect, heffect, rfl, rfl⟩
  | _ => simp [Primitive.attempt?] at hattempt

/-- A look-up without a result opens a phrase. -/
theorem Step.eq_of_miss {index : Nat} {inner : Bool}
    (hstep : Step setting (.consult index inner) core (some false) core') :
    ∃ table, core.tables[index]? = some table ∧ table.lookup core.position = .miss ∧
      core' =
        core.opening (if inner then "" else table.name) table.diagnosis
          (((table.find core.position).2.save core.position).1.map
            fun reservation => ⟨index, reservation.serial⟩)
          (core.tables.set index ((table.find core.position).2.save core.position).2) := by
  generalize hresult : some false = result at hstep
  cases hstep with
  | hit | pending => contradiction
  | miss _ _ htable hlookup => exact ⟨_, htable, hlookup, rfl⟩
  | terminal _ hattempt => simp [Primitive.attempt?] at hattempt

end Core

theorem Run.andThen_of_finished {Result Next : Type} {run : Run Value Result}
    {machine between : Machine Value} {result : Result}
    (hrun : run machine = .finished result between) (next : Result → Run Value Next) :
    run.andThen next machine = next result between := by
  simp only [andThen, hrun]

theorem Run.map_of_finished {Result Next : Type} {run : Run Value Result}
    {machine after : Machine Value} {result : Result}
    (hrun : run machine = .finished result after) (convert : Result → Next) :
    run.map convert machine = .finished (convert result) after :=
  andThen_of_finished hrun _

/-- Where two runs in a row have finished, the first one has. -/
theorem Run.finished_of_andThen {Result Next : Type} {run : Run Value Result}
    {next : Result → Run Value Next} {machine after : Machine Value} {result : Next}
    (hboth : run.andThen next machine = .finished result after) :
    ∃ first between, run machine = .finished first between ∧
      next first between = .finished result after := by
  simp only [andThen] at hboth
  cases hrun : run machine with
  | finished first between =>
      rw [hrun] at hboth
      exact ⟨first, between, rfl, hboth⟩
  | faulted cause between => simp [hrun] at hboth
  | exhausted => simp [hrun] at hboth

/-- A run that has finished behind a conversion has finished before it. -/
theorem Run.finished_of_map {Result Next : Type} {run : Run Value Result}
    {convert : Result → Next} {machine after : Machine Value} {result : Next}
    (hmap : run.map convert machine = .finished result after) :
    ∃ inner, run machine = .finished inner after ∧ convert inner = result := by
  obtain ⟨inner, between, hrun, hdone⟩ := finished_of_andThen hmap
  obtain ⟨hresult, rfl⟩ := Outcome.finished.inj hdone
  exact ⟨inner, hrun, hresult⟩

theorem Run.faulted_of_map {Result Next : Type} {run : Run Value Result}
    {convert : Result → Next} {machine after : Machine Value} {cause : Fault}
    (hmap : run.map convert machine = .faulted cause after) :
    run machine = .faulted cause after := by
  simp only [map, andThen] at hmap
  cases hrun : run machine with
  | finished inner between => simp [hrun, done] at hmap
  | faulted other between =>
      simp only [hrun, Outcome.faulted.injEq] at hmap
      rw [hmap.1, hmap.2]
  | exhausted => simp [hrun] at hmap

/-- Some action of the semantics faults on some phrase. -/
def Setting.ActionFaults (setting : Setting Value) (cause : Fault) : Prop :=
  ∃ action phrase, setting.semantics.action? phrase.name = some action ∧
    action setting.source phrase = .error cause

/-- A run has finished with a result and a machine that are as they should be. -/
def Outcome.FinishesWith {Result : Type} (holds : Result → Machine Value → Prop) :
    Outcome Value Result → Prop
  | .finished result machine => holds result machine
  | _ => False

instance {Result : Type} {holds : Result → Machine Value → Prop}
    [∀ result machine, Decidable (holds result machine)] (outcome : Outcome Value Result) :
    Decidable (outcome.FinishesWith holds) :=
  match outcome with
  | .finished result machine => inferInstanceAs (Decidable (holds result machine))
  | .faulted _ _ | .exhausted => inferInstanceAs (Decidable False)

theorem Outcome.FinishesWith.exists_eq {Result : Type} {holds : Result → Machine Value → Prop}
    {outcome : Outcome Value Result} (hfinishes : outcome.FinishesWith holds) :
    ∃ result machine, outcome = .finished result machine ∧ holds result machine := by
  cases outcome with
  | finished result machine => exact ⟨result, machine, rfl, hfinishes⟩
  | faulted | exhausted => contradiction

namespace Machine

variable {setting : Setting Value} {before after : Machine Value} {primitive : Primitive}
variable {result : Option Bool}

/-- A run that ends with the effect of a terminal. -/
theorem step_of_terminal {attempt : Attempt Value} {run : Run Value Bool}
    (hattempt : primitive.attempt? setting.source = some attempt)
    (hrun : ∃ effect moved, attempt before.position = .ok effect ∧
      run before = .finished effect.matched moved ∧
        moved.core = before.core.undergo effect)
    (hperform : run.map some before = .finished result after) :
    Core.Step setting primitive before.core result after.core := by
  obtain ⟨matched, hfinished, rfl⟩ := Run.finished_of_map hperform
  obtain ⟨effect, moved, heffect, hmoved, hcore⟩ := hrun
  obtain ⟨rfl, rfl⟩ := Outcome.finished.inj (hmoved.symm.trans hfinished)
  rw [hcore]
  exact .terminal before.core hattempt heffect

theorem step_of_close {closing : Closing} {matched : Bool}
    (hclose : close setting closing before = .finished matched after) :
    Core.Step setting (.close closing) before.core (some matched) after.core := by
  cases hframes : before.frames with
  | nil =>
      rw [close_of_frames_eq_nil hframes] at hclose
      contradiction
  | cons frame outer =>
      obtain ⟨phrase, ticket⟩ := frame
      cases hpart : closing.settled? setting.source setting.semantics before.position
          phrase with
      | error cause =>
          obtain ⟨faulted, hfault, _⟩ := close_of_fault hframes hpart
          rw [hfault] at hclose
          contradiction
      | ok part =>
          obtain ⟨closed, hfinished, hcore⟩ := close_of_settled hframes hpart
          rw [hfinished] at hclose
          obtain ⟨rfl, rfl⟩ := Outcome.finished.inj hclose
          rw [hcore]
          exact .close before.core hframes hpart

theorem step_of_consult {index : Nat} {inner matched : Bool}
    (hconsult : consult index inner before = .finished matched after) :
    Core.Step setting (.consult index inner) before.core (some matched) after.core := by
  cases htable : before.tables[index]? with
  | none =>
      rw [consult_of_no_table inner htable] at hconsult
      contradiction
  | some table =>
      cases hlookup : table.lookup before.position with
      | hit part =>
          obtain ⟨found, hfinished, hcore⟩ := consult_of_hit inner htable hlookup
          rw [hfinished] at hconsult
          obtain ⟨rfl, rfl⟩ := Outcome.finished.inj hconsult
          rw [hcore]
          exact .hit before.core inner htable hlookup
      | pending =>
          obtain ⟨found, hfinished, hcore⟩ := consult_of_pending inner htable hlookup
          rw [hfinished] at hconsult
          obtain ⟨rfl, rfl⟩ := Outcome.finished.inj hconsult
          rw [hcore]
          exact .pending before.core inner htable hlookup
      | miss =>
          obtain ⟨opened, hfinished, hcore⟩ := consult_of_miss inner htable hlookup
          rw [hfinished] at hconsult
          obtain ⟨rfl, rfl⟩ := Outcome.finished.inj hconsult
          rw [hcore]
          exact .miss before.core inner htable hlookup

theorem step_of_reuse {use : PhraseUse} {matched : Bool}
    (hreuse : reuse use before = .finished matched after) :
    Core.Step setting (.reuse use) before.core (some matched) after.core := by
  cases hcandidate : before.candidate with
  | none =>
      rw [reuse_of_no_candidate use hcandidate] at hreuse
      contradiction
  | some part =>
      obtain ⟨reused, hfinished, hcore⟩ := reuse_of_candidate use hcandidate
      rw [hfinished] at hreuse
      obtain ⟨rfl, rfl⟩ := Outcome.finished.inj hreuse
      rw [hcore]
      exact .reuse before.core use hcandidate

/-- Every primitive that finishes takes a step. -/
theorem step_of_perform (hperform : perform setting primitive before = .finished result after) :
    Core.Step setting primitive before.core result after.core := by
  cases primitive with
  | addTable name diagnosis =>
      obtain ⟨_, hchange, rfl⟩ := Run.finished_of_map hperform
      obtain ⟨_, rfl⟩ := Outcome.finished.inj hchange
      exact .addTable before.core name diagnosis
  | begin name diagnosis =>
      obtain ⟨_, hchange, rfl⟩ := Run.finished_of_map hperform
      obtain ⟨_, rfl⟩ := Outcome.finished.inj hchange
      exact .begin before.core name diagnosis
  | close closing =>
      obtain ⟨matched, hclose, rfl⟩ := Run.finished_of_map hperform
      exact step_of_close hclose
  | next terminal => exact step_of_terminal rfl (next_eq setting terminal before) hperform
  | ahead terminal => exact step_of_terminal rfl (ahead_eq setting terminal before) hperform
  | aheadNot terminal =>
      exact step_of_terminal rfl (aheadNot_eq setting terminal before) hperform
  | consult index inner =>
      obtain ⟨matched, hconsult, rfl⟩ := Run.finished_of_map hperform
      exact step_of_consult hconsult
  | reuse use =>
      obtain ⟨matched, hreuse, rfl⟩ := Run.finished_of_map hperform
      exact step_of_reuse hreuse

/-! ## Faults -/

/-- The action of the accepted phrase has faulted, so the phrase is no longer open. -/
structure ActionFault (setting : Setting Value) (primitive : Primitive)
    (before after : Machine Value) (cause : Fault) : Prop where
  primitive_eq : primitive = .close .accept
  action : ∃ phrase ticket outer action, before.frames = ⟨phrase, ticket⟩ :: outer ∧
    setting.semantics.action? phrase.name = some action ∧
      action setting.source { phrase with stop := before.position, success := true } =
        .error cause ∧
      after.core = { before.core with stack := (before.top, outer) }

theorem ActionFault.actionFaults {cause : Fault}
    (hfault : ActionFault setting primitive before after cause) :
    setting.ActionFaults cause := by
  obtain ⟨phrase, _, _, action, _, haction, herror, _⟩ := hfault.action
  exact ⟨action, { phrase with stop := before.position, success := true }, haction, herror⟩

theorem fault_of_close {closing : Closing} {cause : Fault}
    (hclose : close setting closing before = .faulted cause after) :
    before.frames = [] ∧ after = before ∨
      ActionFault setting (.close closing) before after cause := by
  cases hframes : before.frames with
  | nil =>
      rw [close_of_frames_eq_nil hframes] at hclose
      exact .inl ⟨rfl, (Outcome.faulted.inj hclose).2.symm⟩
  | cons frame outer =>
      obtain ⟨phrase, ticket⟩ := frame
      obtain ⟨popped, hcore, hvalue⟩ :=
        valueAfter_eq setting closing phrase { before with frames := outer }
      simp only [close, hframes, hvalue] at hclose
      cases closing with
      | accept =>
          simp only [Closing.value?] at hclose
          cases haction : setting.semantics.action? phrase.name with
          | none => simp [haction] at hclose
          | some action =>
              cases hanswer : action setting.source
                  { phrase with stop := before.position, success := true } with
              | ok value => simp [haction, hanswer] at hclose
              | error faulted =>
                  simp only [haction, hanswer] at hclose
                  obtain ⟨rfl, rfl⟩ := Outcome.faulted.inj hclose
                  exact .inr ⟨rfl, phrase, ticket, outer, action, hframes, haction, hanswer,
                    hcore⟩
      | _ => simp [Closing.value?] at hclose

theorem fault_of_consult {index : Nat} {inner : Bool} {cause : Fault}
    (hconsult : consult index inner before = .faulted cause after) :
    before.tables[index]? = none ∧ after = before := by
  cases htable : before.tables[index]? with
  | none =>
      rw [consult_of_no_table inner htable] at hconsult
      exact ⟨rfl, (Outcome.faulted.inj hconsult).2.symm⟩
  | some table =>
      have hfinished : ∃ found opened, consult index inner before = .finished found opened := by
        cases hlookup : table.lookup before.position with
        | hit part =>
            obtain ⟨found, hfinished, _⟩ := consult_of_hit inner htable hlookup
            exact ⟨true, found, hfinished⟩
        | pending =>
            obtain ⟨found, hfinished, _⟩ := consult_of_pending inner htable hlookup
            exact ⟨true, found, hfinished⟩
        | miss =>
            obtain ⟨opened, hfinished, _⟩ := consult_of_miss inner htable hlookup
            exact ⟨false, opened, hfinished⟩
      obtain ⟨found, opened, hfinished⟩ := hfinished
      rw [hfinished] at hconsult
      contradiction

theorem fault_of_reuse {use : PhraseUse} {cause : Fault}
    (hreuse : reuse use before = .faulted cause after) :
    before.candidate = none ∧ after = before := by
  cases hcandidate : before.candidate with
  | none =>
      rw [reuse_of_no_candidate use hcandidate] at hreuse
      exact ⟨rfl, (Outcome.faulted.inj hreuse).2.symm⟩
  | some part =>
      obtain ⟨_, hfinished, _⟩ := reuse_of_candidate use hcandidate
      rw [hfinished] at hreuse
      contradiction

/-- A terminal never faults. -/
theorem not_faulted_of_terminal {attempt : Attempt Value} {run : Run Value Bool}
    {cause : Fault}
    (hrun : ∃ effect moved, attempt before.position = .ok effect ∧
      run before = .finished effect.matched moved ∧
        moved.core = before.core.undergo effect)
    (hperform : run.map some before = .faulted cause after) : False := by
  obtain ⟨effect, moved, _, hfinished, _⟩ := hrun
  have hfaulted := Run.faulted_of_map hperform
  rw [hfinished] at hfaulted
  contradiction

/-- A primitive that is not permitted changes nothing; one that is permitted faults only
because of an action. -/
theorem fault_of_perform {cause : Fault}
    (hperform : perform setting primitive before = .faulted cause after) :
    ¬before.core.Permits primitive ∧ after = before ∨
      ActionFault setting primitive before after cause := by
  cases primitive with
  | addTable name diagnosis => exact nomatch Run.faulted_of_map hperform
  | begin name diagnosis => exact nomatch Run.faulted_of_map hperform
  | close closing =>
      apply (fault_of_close (Run.faulted_of_map hperform)).imp_left
      exact fun hfault => ⟨fun hpermits => hpermits hfault.1, hfault.2⟩
  | next terminal =>
      exact (not_faulted_of_terminal (next_eq setting terminal before) hperform).elim
  | ahead terminal =>
      exact (not_faulted_of_terminal (ahead_eq setting terminal before) hperform).elim
  | aheadNot terminal =>
      exact (not_faulted_of_terminal (aheadNot_eq setting terminal before) hperform).elim
  | consult index inner =>
      obtain ⟨htable, hsame⟩ := fault_of_consult (Run.faulted_of_map hperform)
      refine .inl ⟨fun hpermits => ?_, hsame⟩
      exact Nat.not_le.mpr hpermits (List.getElem?_eq_none_iff.mp htable)
  | reuse use =>
      obtain ⟨hcandidate, hsame⟩ := fault_of_reuse (Run.faulted_of_map hperform)
      exact .inl ⟨fun hpermits => hpermits hcandidate, hsame⟩

end Machine

end Packrat
