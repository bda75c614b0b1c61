import Packrat.Proofs.Course

/-!
# Work that is counted

For the phrases of one name, the counters and the journal say how often a body was entered, how
often a result took its place, how the phrases were closed, and how often their action ran.
Each primitive adds to that at most once.
-/

namespace Packrat

variable {Value : Type} {setting : Setting Value} {name title : String}

/-! ## Counters -/

namespace Counters

theorem lookup_changed (change : RuleCounters → RuleCounters) (title name : String)
    (rules : List (String × RuleCounters)) :
    ((changed change title rules).lookup name).getD .zero =
      if title = name then change ((rules.lookup name).getD .zero)
      else (rules.lookup name).getD .zero := by
  induction rules with
  | nil =>
      by_cases hname : title = name
      · simp [changed, hname]
      · have hother : (name == title) = false := by simpa using Ne.symm hname
        simp [changed, hname, List.lookup_cons, hother]
  | cons entry rest ih =>
      obtain ⟨other, counted⟩ := entry
      by_cases hother : other = title <;> by_cases hname : name = other <;> grind [changed]

theorem rule_changeRule (counters : Counters) (change : RuleCounters → RuleCounters)
    (title name : String) :
    (counters.changeRule title change).rule name =
      if title = name then change (counters.rule name) else counters.rule name :=
  lookup_changed change title name counters.rules

/-- Entering a body also says whether that has happened here before. -/
theorem rule_enter (counters : Counters) (title name : String) (position : Nat) :
    (counters.enter title position).rule name =
      if title = name then
        { counters.rule name with
          calls := (counters.rule name).calls + 1
          rescanned := (counters.rule name).rescanned +
            if (title, position) ∈ counters.visited then 1 else 0 }
      else counters.rule name := by
  have hchanged := counters.rule_changeRule (fun rule =>
    { rule with
      calls := rule.calls + 1
      rescanned := rule.rescanned +
        if counters.visited.contains (title, position) then 1 else 0 }) title name
  simp only [List.contains_iff_mem] at hchanged
  refine Eq.trans ?_ hchanged
  simp only [enter, List.contains_iff_mem]
  split <;> rfl

theorem mem_visited_enter {counters : Counters} {position : Nat} {visit : String × Nat} :
    visit ∈ (counters.enter title position).visited ↔
      visit = (title, position) ∨ visit ∈ counters.visited := by
  simp only [enter]
  split
  · next hagain =>
      refine ⟨.inr, ?_⟩
      rintro (rfl | hvisit)
      · exact List.contains_iff_mem.mp hagain
      · exact hvisit
  · exact List.mem_cons

theorem rule_finish (counters : Counters) (title name : String) (success : Bool) :
    (counters.finish title success).rule name =
      if title = name then
        if success then
          { counters.rule name with succeeded := (counters.rule name).succeeded + 1 }
        else { counters.rule name with failed := (counters.rule name).failed + 1 }
      else counters.rule name :=
  counters.rule_changeRule _ title name

/-- Closing a phrase is no call. -/
theorem exists_rule_finish (counters : Counters) (title name : String) (success : Bool) :
    ∃ succeeded failed, (counters.finish title success).rule name =
      { counters.rule name with succeeded := succeeded, failed := failed } := by
  rw [rule_finish]
  split
  · cases success
    · exact ⟨_, _, rfl⟩
    · exact ⟨_, _, rfl⟩
  · exact ⟨_, _, rfl⟩

theorem rule_reuse (counters : Counters) (title name : String) :
    (counters.reuse title).rule name =
      if title = name then { counters.rule name with reused := (counters.rule name).reused + 1 }
      else counters.rule name :=
  counters.rule_changeRule _ title name

/-- What is counted for named phrases only could as well be counted for all of them. -/
theorem rule_ite_isEmpty (hname : name ≠ "") {counters changed : Counters}
    (hchanged : title ≠ name → changed.rule name = counters.rule name) :
    (if title.isEmpty then counters else changed).rule name = changed.rule name := by
  split
  · next hempty =>
      refine (hchanged ?_).symm
      rintro rfl
      exact hname (String.isEmpty_iff.mp hempty)
  · rfl

end Counters

/-! ## The work of a machine -/

/-- The work done for the phrases of one name. -/
structure Work where
  calls : Nat
  reused : Nat
  succeeded : Nat
  failed : Nat
  /-- How often the action ran. -/
  acted : Nat

def JournalEntry.actsOn (name : String) : JournalEntry Value → Bool
  | .action phrase => phrase.name == name
  | _ => false

namespace Machine

/-- How often the action of a rule has run, as the journal has it. -/
def actionRuns (name : String) (machine : Machine Value) : Nat :=
  machine.journal.newestFirst.countP (·.actsOn name)

/-- What the counters and the journal say about the phrases of a name. -/
def work (name : String) (machine : Machine Value) : Work :=
  let counted := machine.counters.rule name
  ⟨counted.calls, counted.reused, counted.succeeded, counted.failed, machine.actionRuns name⟩

variable {machine after : Machine Value}

@[simp]
theorem work_noteEvent (event : Event) :
    (machine.noteEvent event).work name = machine.work name := rfl

@[simp]
theorem work_moveTo (position : Nat) : (machine.moveTo position).work name = machine.work name :=
  rfl

@[simp]
theorem work_setFrames (frames : List (Frame Value)) :
    { machine with frames := frames }.work name = machine.work name := rfl

@[simp]
theorem work_setTables (tables : List (MemoTable Value)) :
    { machine with tables := tables }.work name = machine.work name := rfl

@[simp]
theorem work_changeCurrent (change : Phrase Value → Phrase Value) :
    (machine.changeCurrent change).work name = machine.work name := by
  cases hframes : machine.frames <;> simp only [changeCurrent, hframes] <;> rfl

theorem work_absorb (use : PhraseUse) (part : Phrase Value) :
    (machine.absorb use part).work name = machine.work name :=
  work_changeCurrent _

theorem work_fill (ticket : Option Ticket) (part : Phrase Value) :
    (machine.fill ticket part).work name = machine.work name := by
  cases ticket <;> rfl

theorem work_fail (terminal : Terminal) :
    (machine.fail terminal).work name = machine.work name := by
  rw [fail]
  split
  · rfl
  · rw [work_changeCurrent, work_noteEvent]

theorem work_consume (length : Nat) :
    (machine.consume length).work name = machine.work name :=
  work_changeCurrent _

theorem work_begin (hname : name ≠ "") (title diagnosis : String) (ticket : Option Ticket) :
    (machine.begin title diagnosis ticket).work name =
      { machine.work name with
        calls := (machine.work name).calls + if title = name then 1 else 0 } := by
  have hentered := machine.counters.rule_enter title name machine.position
  have hcounted : (machine.begin title diagnosis ticket).counters.rule name =
      (machine.counters.enter title machine.position).rule name :=
    Counters.rule_ite_isEmpty hname fun hother => hentered.trans (if_neg hother)
  simp only [work, hcounted, hentered]
  split <;> rfl

theorem work_offer (hname : name ≠ "") (title : String) (candidate : Phrase Value) :
    (machine.offer title candidate).work name =
      { machine.work name with
        reused := (machine.work name).reused + if title = name then 1 else 0 } := by
  have hcounted : (machine.offer title candidate).counters.rule name =
      (machine.counters.reuse title).rule name :=
    Counters.rule_ite_isEmpty hname fun hother => by rw [Counters.rule_reuse, if_neg hother]
  simp only [work, hcounted, Counters.rule_reuse]
  split <;> rfl

theorem work_noteClosed (hname : name ≠ "") (phrase : Phrase Value) :
    (machine.noteClosed phrase).work name =
      { machine.work name with
        succeeded := (machine.work name).succeeded +
          if phrase.name = name ∧ phrase.success = true then 1 else 0
        failed := (machine.work name).failed +
          if phrase.name = name ∧ phrase.success = false then 1 else 0 } := by
  have hcounters : (machine.noteClosed phrase).counters =
      if phrase.name.isEmpty then machine.counters
      else machine.counters.finish phrase.name phrase.success := by
    rw [noteClosed, Phrase.isInner]
    split <;> rfl
  have hruns : (machine.noteClosed phrase).actionRuns name = machine.actionRuns name := by
    rw [noteClosed]
    split <;> rfl
  have hcounted : (machine.noteClosed phrase).counters.rule name =
      (machine.counters.finish phrase.name phrase.success).rule name := by
    rw [hcounters]
    exact Counters.rule_ite_isEmpty hname fun hother => by
      rw [Counters.rule_finish, if_neg hother]
  simp only [work, hcounted, hruns, Counters.rule_finish]
  cases phrase.success <;> by_cases hsame : phrase.name = name <;> simp [hsame]

theorem work_note_action (phrase : Phrase Value) :
    (machine.note (.action phrase)).work name =
      { machine.work name with
        acted := (machine.work name).acted + if phrase.name = name then 1 else 0 } := by
  simp [work, actionRuns, note, Journal.note, List.countP_cons, JournalEntry.actsOn]

/-- The action of a rule runs once when a phrase of the rule is accepted. -/
theorem work_valueAfter {closing : Closing} {phrase : Phrase Value} {value : Option Value}
    (hvalue : valueAfter setting closing phrase machine = .finished value after) :
    after.work name =
      { machine.work name with
        acted := (machine.work name).acted +
          if phrase.name = name ∧ closing = .accept ∧
            setting.semantics.hasAction phrase.name = true then 1 else 0 } := by
  cases closing with
  | accept =>
      simp only [valueAfter, act] at hvalue
      cases haction : setting.semantics.action? phrase.name with
      | none =>
          simp only [haction] at hvalue
          obtain ⟨_, rfl⟩ := Outcome.finished.inj hvalue
          simp [Semantics.hasAction, haction]
      | some action =>
          simp only [haction] at hvalue
          split at hvalue
          · obtain ⟨_, rfl⟩ := Outcome.finished.inj hvalue
            simp [Semantics.hasAction, haction, work_note_action]
          · contradiction
  | _ =>
      obtain ⟨_, rfl⟩ := Outcome.finished.inj hvalue
      simp

/-! ## The work of the primitives -/

theorem work_ahead {terminal : Terminal} {matched : Bool}
    (hahead : ahead setting terminal machine = .finished matched after) :
    after.work name = machine.work name := by
  simp only [ahead] at hahead
  split at hahead <;> obtain ⟨_, rfl⟩ := Outcome.finished.inj hahead
  · rfl
  · exact work_fail terminal

theorem work_aheadNot {terminal : Terminal} {matched : Bool}
    (hahead : aheadNot setting terminal machine = .finished matched after) :
    after.work name = machine.work name := by
  simp only [aheadNot] at hahead
  split at hahead <;> obtain ⟨_, rfl⟩ := Outcome.finished.inj hahead
  · exact work_fail terminal.negate
  · rfl

theorem work_next {terminal : Terminal} {matched : Bool}
    (hnext : next setting terminal machine = .finished matched after) :
    after.work name = machine.work name := by
  rw [next] at hnext
  split at hnext
  · exact work_ahead hnext
  · simp only at hnext
    split at hnext <;> obtain ⟨_, rfl⟩ := Outcome.finished.inj hnext
    · exact work_consume _
    · exact work_fail terminal

theorem work_reuse {use : PhraseUse} {matched : Bool}
    (hreuse : reuse use machine = .finished matched after) :
    after.work name = machine.work name := by
  simp only [reuse] at hreuse
  split at hreuse
  · contradiction
  · obtain ⟨_, rfl⟩ := Outcome.finished.inj hreuse
    rw [work_absorb]
    split <;> rfl

/-- A table that is asked either takes the place of a body or has it entered. -/
theorem work_consult (hname : name ≠ "") {index : Nat} {inner found : Bool}
    {table : MemoTable Value} (htable : machine.tables[index]? = some table)
    (hconsult : consult index inner machine = .finished found after) :
    after.work name =
      { machine.work name with
        calls := (machine.work name).calls +
          if found = false ∧ (if inner then "" else table.name) = name then 1 else 0
        reused := (machine.work name).reused +
          if found = true ∧ (if inner then "" else table.name) = name then 1 else 0 } := by
  simp only [consult, htable] at hconsult
  split at hconsult <;> obtain ⟨rfl, rfl⟩ := Outcome.finished.inj hconsult
  · simp [work_offer hname]
  · simp [work_offer hname]
  · rw [work_begin hname]
    split <;> simp

/-- A phrase that is closed counts as succeeded or as failed, and its action runs if it is
accepted. -/
theorem work_close (hname : name ≠ "") {closing : Closing} {phrase : Phrase Value}
    {ticket : Option Ticket} {outer : List (Frame Value)} {matched : Bool}
    (hframes : machine.frames = ⟨phrase, ticket⟩ :: outer)
    (hclose : close setting closing machine = .finished matched after) :
    after.work name =
      { machine.work name with
        succeeded := (machine.work name).succeeded +
          if phrase.name = name ∧ closing.succeeds = true then 1 else 0
        failed := (machine.work name).failed +
          if phrase.name = name ∧ closing.succeeds = false then 1 else 0
        acted := (machine.work name).acted +
          if phrase.name = name ∧ closing = .accept ∧
            setting.semantics.hasAction phrase.name = true then 1 else 0 } := by
  simp only [close, hframes] at hclose
  cases hvalue : valueAfter setting closing phrase { machine with frames := outer } with
  | finished value popped =>
      simp only [hvalue] at hclose
      obtain ⟨_, rfl⟩ := Outcome.finished.inj hclose
      rw [work_absorb, work_fill, work_noteClosed hname]
      rw [work_moveTo, work_valueAfter hvalue, work_setFrames]
      rfl
  | faulted | exhausted => simp [hvalue] at hclose

/-- A parse begins with nothing done. -/
theorem work_start (name : String) (setting : Setting Value) (machine : Machine Value) :
    (machine.start setting).work name = ⟨0, 0, 0, 0, 0⟩ := rfl

/-- Judging a parse is no work on phrases. -/
theorem work_conclude {matched : Bool} {answer : Except ParseError (Phrase Value)}
    (hconclude : conclude setting matched machine = .finished answer after) :
    after.work name = machine.work name := by
  simp only [conclude] at hconclude
  split at hconclude
  · split at hconclude
    · obtain ⟨_, rfl⟩ := Outcome.finished.inj hconclude
      rfl
    · split at hconclude
      · obtain ⟨_, rfl⟩ := Outcome.finished.inj hconclude
        rfl
      · contradiction
  · contradiction

end Machine

/-- Terminals are not counted. -/
theorem Grammar.work_of_terminal {primitive : Primitive} {attempt : Attempt Value}
    {before after : Machine Value} {matched : Bool}
    (hattempt : primitive.attempt? setting.source = some attempt)
    (htest : Grammar.test setting primitive before = .finished matched after) :
    after.work name = before.work name := by
  cases primitive with
  | next terminal =>
      rw [Grammar.test_next] at htest
      exact Machine.work_next htest
  | ahead terminal =>
      rw [Grammar.test_ahead] at htest
      exact Machine.work_ahead htest
  | aheadNot terminal =>
      rw [Grammar.test_aheadNot] at htest
      exact Machine.work_aheadNot htest
  | _ => simp [Primitive.attempt?] at hattempt

/-- A remark is the only thing that a procedure adds to what it remarks upon. -/
theorem Procedure.finished_of_remarked {procedure : Procedure Value}
    {before after : Machine Value} {matched : Bool}
    (hfinished : (Procedure.remarked title procedure).run setting before =
      .finished matched after) :
    ∃ between, procedure.run setting before = .finished matched between ∧
      after.core = between.core ∧ ∀ name, after.work name = between.work name := by
  rw [run_remarked] at hfinished
  obtain ⟨start, _, hlook, hrest⟩ := Run.finished_of_andThen hfinished
  obtain ⟨_, rfl⟩ := Outcome.finished.inj hlook
  obtain ⟨result, between, hprocedure, hremark⟩ := Run.finished_of_andThen hrest
  obtain ⟨rfl, rfl⟩ := Outcome.finished.inj hremark
  refine ⟨between, hprocedure, rfl, fun name => ?_⟩
  simp [Machine.work, Machine.actionRuns, Machine.note, Journal.note, JournalEntry.actsOn]

end Packrat
