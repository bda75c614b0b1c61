import Packrat.Grammar.Steps
import Packrat.Proofs.Spares

/-!
# Memory never adds work

An evaluation with memo tables is compared with the one without.  Where nothing is found,
both enter a body.  Where a result is found, the body that is entered without memory makes up
for the reuse, and whatever happens inside it is spared.
-/

namespace Packrat

variable {Value : Type} {grammar : Grammar} {setting : Setting Value} {name : String}
variable {steps : Nat}

/-! ## Consulting a table -/

theorem Expression.enclosure_eq_rule_or_isInner (expression : Expression) :
    expression.enclosure = .rule ∨ expression.isInner = true := by
  cases expression <;> simp [enclosure, isInner]

section Consulting

variable {user : Expression} {index : Nat} {memoizing plain : Procedure Value}
variable {machine asked bare bareOpened after bareAfter : Machine Value}
variable {label : TableLabel} {matched plainMatched : Bool}

/-- The phrases of inner expressions have no name. -/
theorem Grammar.name_of_tableLabel? (hlabel : grammar.tableLabel? index true = some label) :
    label.name = "" := by
  obtain ⟨_, _, rfl⟩ := Option.map_eq_some_iff.mp hlabel
  rfl

/-- Without memory, asking a table is entering the body. -/
theorem Grammar.opened_of_consult_bare (setting : Setting Value) (hname : name ≠ "")
    (hready : (Regime.unmemoized grammar).Ready bare.tables)
    (hlabel : grammar.tableLabel? index user.isInner = some label) :
    ∃ opened, Grammar.test setting (.consult index user.isInner) bare = .finished false opened ∧
      opened.core = (bare.begin label.name label.diagnosis none).core ∧
        opened.work name =
          { bare.work name with
            calls := (bare.work name).calls + if label.name = name then 1 else 0 } := by
  rw [tableLabel?_of_labels hready.1] at hlabel
  obtain ⟨table, htable, rfl⟩ := Option.map_eq_some_iff.mp hlabel
  have hslots := hready.2 table (List.mem_of_getElem? htable)
  obtain ⟨opened, hconsult, hcore⟩ := consult_of_slots_eq_nil htable hslots
  refine ⟨opened, by rw [test_consult, hconsult], hcore, ?_⟩
  rw [Machine.work_consult hname htable hconsult]
  simp

/-- With memory, a result that is found counts as much as entering the body would. -/
theorem Grammar.work_of_consult (hname : name ≠ "")
    (hlabels : machine.tables.map MemoTable.label = grammar.tables) {found : Bool}
    (hlabel : grammar.tableLabel? index user.isInner = some label)
    (hconsult : Machine.consult index user.isInner machine = .finished found asked) :
    asked.work name =
      { machine.work name with
        calls := (machine.work name).calls +
          if found = false ∧ label.name = name then 1 else 0
        reused := (machine.work name).reused +
          if found = true ∧ label.name = name then 1 else 0 } := by
  rw [tableLabel?_of_labels hlabels] at hlabel
  obtain ⟨table, htable, rfl⟩ := Option.map_eq_some_iff.mp hlabel
  exact Machine.work_consult hname htable hconsult

/-- Where nothing is found, both machines open the same phrase, and stay paired. -/
theorem Machine.Paired.of_miss (hexclusive : grammar.tablesInUse.Nodup)
    (huser : (index, user) ∈ grammar.users)
    (hpaired : machine.Paired grammar setting steps bare)
    (hexhausted : grammar.attempt setting.source setting.semantics steps user
      machine.position = .error .exhausted)
    (hlabel : grammar.tableLabel? index user.isInner = some label)
    (hconsult : Machine.consult index user.isInner machine = .finished false asked)
    (hopened : bareOpened.core = (bare.begin label.name label.diagnosis none).core) :
    asked.Paired grammar setting steps bareOpened ∧ asked.position = machine.position ∧
      ∃ ticket, asked.frames =
        ⟨.opened label.name label.diagnosis machine.position, ticket⟩ :: machine.frames := by
  have hstep : Core.Step setting (.consult index user.isInner) machine.core (some false)
      asked.core := Machine.step_of_consult hconsult
  obtain ⟨table, htable, _, hcore⟩ := hstep.eq_of_miss
  rw [Grammar.tableLabel?_of_labels hpaired.remembers.labels] at hlabel
  obtain ⟨_, hsame, rfl⟩ := Option.map_eq_some_iff.mp hlabel
  obtain rfl := Option.some.inj (htable.symm.trans hsame)
  have htables : asked.tables = machine.tables.set index
      ((table.find machine.position).2.save machine.position).2 := congrArg Core.tables hcore
  have hposition : asked.position = machine.position := congrArg Core.position hcore
  have hbareTables : bareOpened.tables = bare.tables := congrArg Core.tables hopened
  have hbarePosition : bareOpened.position = bare.position := congrArg Core.position hopened
  refine ⟨⟨?_, hbareTables ▸ hpaired.unmemoized, ?_⟩, hposition, _,
    (Prod.mk.inj (congrArg Core.stack hcore)).2⟩
  · rw [htables]
    exact hpaired.remembers.set_save_of_user hexclusive huser htable hexhausted
  · rw [hbarePosition, hposition, hpaired.position]

/-- A result that is found spares the whole body but the entry. -/
theorem Procedure.Spares.consulting (hname : name ≠ "") (hexclusive : grammar.tablesInUse.Nodup)
    (huser : (index, user) ∈ grammar.users) (huses : grammar.table? user = some index)
    (hbody : memoizing.Spares grammar setting name steps plain
      (grammar.tableBody setting.source setting.semantics steps user))
    (hbalances : plain.Balances setting.withoutMemory name)
    (hpaired : machine.Paired grammar setting steps bare)
    (hexhausted : grammar.attempt setting.source setting.semantics steps user
      machine.position = .error .exhausted) {effect : Effect Value}
    (heffect : grammar.attempt setting.source setting.semantics (steps + 1) user
      machine.position = .ok effect)
    (hfinished : (Procedure.consulting user.enclosure index user.isInner memoizing).run setting
      machine = .finished matched after)
    (hplain : (Procedure.consulting user.enclosure index user.isInner plain).run
      setting.withoutMemory bare = .finished plainMatched bareAfter) :
    (machine.work name).AddsNoMore (after.work name) (bare.work name)
      (bareAfter.work name) := by
  rw [Grammar.attempt_succ_of_table grammar huses] at heffect
  obtain ⟨label, inside, part, hlabel, hinside, _, _⟩ := Attempt.within_eq_ok_iff.mp heffect
  obtain ⟨bareOpened, hbareConsult, hbareCore, hbareWork⟩ :=
    Grammar.opened_of_consult_bare setting.withoutMemory hname hpaired.unmemoized hlabel
  obtain ⟨found, asked, hconsult, hrest⟩ := Run.finished_of_andThen hfinished
  obtain ⟨bareFound, bareAsked, hbareAsked, hbareRest⟩ := Run.finished_of_andThen hplain
  obtain ⟨rfl, rfl⟩ := Outcome.finished.inj (hbareConsult.symm.trans hbareAsked)
  rw [Grammar.test_consult] at hconsult
  have hwork := Grammar.work_of_consult hname hpaired.remembers.labels hlabel hconsult
  cases found with
  | true =>
      have hreused : after.work name = asked.work name := by
        simp only [if_true, Procedure.run_call, Grammar.test_reuse] at hrest
        exact Machine.work_reuse hrest
      have hnames : bareOpened.core.openNames = label.name :: bare.core.openNames :=
        congrArg Core.openNames hbareCore
      have htitle : user.enclosure = .rule ∨ label.name = "" :=
        user.enclosure_eq_rule_or_isInner.imp_right fun hinner =>
          Grammar.name_of_tableLabel? (hinner ▸ hlabel)
      obtain ⟨_, hgrows⟩ := hbalances.closedAfter hname htitle hnames hbareRest
      rw [hreused, hwork]
      rw [hbareWork] at hgrows
      have hcalls := hgrows.calls_le
      simp only at hcalls
      exact ⟨by simp only [Bool.true_eq_false, false_and, if_false, true_and]; omega,
        Nat.add_le_add_left hgrows.succeeded_le _, Nat.add_le_add_left hgrows.failed_le _⟩
  | false =>
      obtain ⟨hopened, hasked, ticket, hframes⟩ :=
        hpaired.of_miss hexclusive huser hexhausted hlabel hconsult hbareCore
      have hbareFrames : bareOpened.frames =
          ⟨.opened label.name label.diagnosis machine.position, none⟩ :: bare.frames := by
        rw [← hpaired.position]
        exact (Prod.mk.inj (congrArg Core.stack hbareCore)).2
      have hclosed := hbody.closedAfter hname hopened hframes hbareFrames (hasked ▸ hinside)
        hrest hbareRest
      refine .trans ?_ hclosed
      rw [hwork, hbareWork]
      exact ⟨by simp only [Bool.false_eq_true, false_and, if_false, true_and]; omega,
        Nat.le_refl _, Nat.le_refl _⟩

end Consulting

/-! ## Whole evaluations -/

theorem Procedure.finished_of_remarking {expression : Expression} {procedure : Procedure Value}
    {before after : Machine Value} {matched : Bool}
    (hfinished : (expression.remarking procedure).run setting before = .finished matched after) :
    ∃ between, procedure.run setting before = .finished matched between ∧
      after.work name = between.work name := by
  cases expression with
  | rule title =>
      obtain ⟨between, hbetween, _, hwork⟩ := finished_of_remarked hfinished
      exact ⟨between, hbetween, hwork name⟩
  | _ => exact ⟨after, hfinished, rfl⟩

namespace Grammar

/-- An expression that opens its phrase plainly, or opens none. -/
theorem procedure_succ_spares (hname : name ≠ "") {bound more : Nat} {expression : Expression}
    (htable : grammar.table? expression = none)
    (hparts : ∀ part ∈ grammar.parts expression,
      (grammar.procedure more part).Spares grammar setting name bound
        (grammar.procedure steps part)
        (grammar.attempt setting.source setting.semantics steps part)) :
    (grammar.procedure (more + 1) expression).Spares grammar setting name bound
      (grammar.procedure (steps + 1) expression)
      (grammar.attempt setting.source setting.semantics (steps + 1) expression) := by
  cases expression with
  | terminal | ahead | aheadNot => exact .terminal rfl
  | rule title =>
      rw [procedure, procedure, attempt]
      cases hrule : grammar.rule? title with
      | none => exact .fault .outOfRange
      | some rule =>
          have hplain : rule.table = none := by
            simpa [table?, hrule] using htable
          have hpart : ∀ part ∈ rule.body,
              (grammar.procedure more part).Spares grammar setting name bound
                (grammar.procedure steps part)
                (grammar.attempt setting.source setting.semantics steps part) := by
            simpa [parts, hrule] using hparts
          simp only [Procedure.ofRule, ruleLabel?, hplain]
          exact .remarked title (.beginning hname (.all rule.body hpart))
  | choice alternatives => exact .any alternatives hparts
  | optional body =>
      have hbody := hparts body List.mem_cons_self
      exact hbody.andThen fun _ => .done true
  | star body =>
      have hbody := hparts body List.mem_cons_self
      have hagain := hparts (.star body) (List.mem_cons_of_mem _ List.mem_cons_self)
      exact hbody.round hagain
  | plus body =>
      have hbody := hparts body List.mem_cons_self
      have hagain := hparts (.star body) (List.mem_cons_of_mem _ List.mem_cons_self)
      exact hbody.andThen fun _ => .ite hagain (.done false)
  | sequence opening parts =>
      cases opening with
      | memoized table => simp [table?, Opening.table?] at htable
      | plain diagnosis => exact .beginning hname (.all parts hparts)
  | andPredicate opening argument | notPredicate opening argument =>
      cases opening with
      | memoized table => simp [table?, Opening.table?] at htable
      | plain diagnosis => exact (hparts argument List.mem_cons_self).beginning hname

/-- Without memory, an evaluation may as well be allowed the steps that its attempt needs. -/
theorem run_procedure_of_fewer {least : Nat} (hleast : least ≤ steps) {expression : Expression}
    {machine after : Machine Value} (hready : (Regime.unmemoized grammar).Ready machine.tables)
    {effect : Effect Value} {matched : Bool}
    (heffect : grammar.attempt setting.source setting.semantics least expression
      machine.position = .ok effect)
    (hfinished : (grammar.procedure steps expression).run setting machine =
      .finished matched after) :
    (grammar.procedure least expression).run setting machine = .finished matched after := by
  have hrun := evaluate_realizes_unmemoized grammar setting least expression machine hready
  rw [heffect] at hrun
  obtain ⟨_, hleastRun, _⟩ := hrun
  have hextended := grammar.evaluate_extendedBy setting hleast expression machine
    (by rw [hleastRun]; nofun)
  rw [← evaluate_eq_run] at hfinished ⊢
  exact hextended.symm.trans hfinished

theorem procedure_spares (hname : name ≠ "") (hexclusive : grammar.tablesInUse.Nodup)
    {more : Nat} (hsteps : steps ≤ more) {expression : Expression}
    (hexpression : expression.users ⊆ grammar.users) :
    (grammar.procedure more expression).Spares grammar setting name steps
      (grammar.procedure steps expression)
      (grammar.attempt setting.source setting.semantics steps expression) := by
  -- Strong induction: bodies under a table are compared for the least steps they need.
  induction steps using Nat.strongRecOn generalizing more expression with
  | ind steps ih =>
      have hrealizes := evaluate_realizes_remembering hexclusive setting hsteps hexpression
      have hplainly := evaluate_realizes_unmemoized grammar setting.withoutMemory steps expression
      rw [evaluate_eq_run] at hrealizes hplainly
      cases steps with
      | zero =>
          refine ⟨hrealizes, hplainly, ?_⟩
          intro machine bare _ effect heffect
          contradiction
      | succ steps =>
          obtain ⟨more, rfl⟩ : ∃ fewer, more = fewer + 1 := ⟨more - 1, by omega⟩
          have hparts : ∀ least ≤ steps, ∀ part ∈ grammar.parts expression,
              (grammar.procedure more part).Spares grammar setting name least
                (grammar.procedure least part)
                (grammar.attempt setting.source setting.semantics least part) := by
            intro least hleast part hpart
            exact ih least (Nat.lt_succ_of_le hleast) (by omega)
              (users_parts_subset hexpression hpart)
          cases huses : grammar.table? expression with
          | none =>
              apply procedure_succ_spares hname huses
              intro part hpart
              exact (hparts steps (Nat.le_refl _) part hpart).mono (Nat.le_succ steps)
          | some index =>
              refine ⟨hrealizes, hplainly, ?_⟩
              intro machine bare hpaired effect heffect after bareAfter hfinished hplain
              obtain ⟨least, hleast, hexhausted, hsame⟩ :=
                grammar.exists_least_attempt setting.source setting.semantics
                  (by rw [heffect]; nofun)
              rw [← hsame] at heffect
              have hbare := run_procedure_of_fewer hleast hpaired.unmemoized
                (hpaired.position ▸ heffect) hplain
              rw [procedure_succ_of_table huses] at hfinished hbare
              obtain ⟨between, hconsulting, hwork⟩ :=
                Procedure.finished_of_remarking hfinished
              obtain ⟨bareBetween, hbareConsulting, hbareWork⟩ :=
                Procedure.finished_of_remarking hbare
              have hbody := Procedure.Spares.all _ (hparts least (Nat.le_of_lt_succ hleast))
              have hbalances : (Procedure.all ((grammar.parts expression).map
                  (grammar.procedure least))).Balances setting.withoutMemory name :=
                .all _ (procedure_balances hname grammar least)
              rw [hwork, hbareWork]
              exact hbody.consulting hname hexclusive (mem_users_of_table hexpression huses) huses
                hbalances ⟨hpaired.remembers.mono (by omega), hpaired.unmemoized,
                  hpaired.position⟩ hexhausted heffect hconsulting hbareConsulting

theorem rootProcedure_spares (hname : name ≠ "") (hexclusive : grammar.tablesInUse.Nodup)
    {more : Nat} (hsteps : steps ≤ more) :
    (grammar.rootProcedure more).Spares grammar setting name steps (grammar.rootProcedure steps)
      (grammar.rootAttempt setting.source setting.semantics steps) := by
  simp only [rootProcedure, rootAttempt]
  cases grammar.rules with
  | nil => exact .fault .outOfRange
  | cons rule rest => exact procedure_spares hname hexclusive hsteps (List.nil_subset _)

/-- Two parses that finish, with memory and without, on machines with the tables of the
grammar. -/
theorem work_of_parses (hname : name ≠ "") (hexclusive : grammar.tablesInUse.Nodup)
    {plain memoizing : Machine Value} (hplain : plain.HasTablesOf grammar)
    (hmemoizing : memoizing.HasTablesOf grammar) {more : Nat} (hsteps : steps ≤ more)
    {answer other : Except ParseError (Phrase Value)} {after bare : Machine Value}
    (hparse : grammar.parse setting more memoizing = .finished answer after)
    (hbare : grammar.parse setting.withoutMemory steps plain = .finished other bare) :
    Work.AddsNoMore ⟨0, 0, 0, 0, 0⟩ (after.work name) ⟨0, 0, 0, 0, 0⟩ (bare.work name) := by
  have hanswers := parse_answers_unmemoized setting.withoutMemory hplain rfl steps
  rw [hbare] at hanswers
  obtain ⟨effect, heffect, _⟩ := hanswers.of_finished trivial
  have hpaired : (memoizing.start setting).Paired grammar setting steps
      (plain.start setting.withoutMemory) :=
    ⟨remembers_start hmemoizing, hplain.unmemoized_start rfl, rfl⟩
  obtain ⟨between, bareBetween, hends⟩ :=
    (rootProcedure_spares hname hexclusive hsteps).exists_ends hpaired heffect
  obtain ⟨_, _, hroot, hwork⟩ := finished_of_parse hparse
  obtain ⟨_, _, hbareRoot, hbareWork⟩ := finished_of_parse hbare
  obtain ⟨_, rfl⟩ := Outcome.finished.inj (hends.finished.symm.trans hroot)
  obtain ⟨_, rfl⟩ := Outcome.finished.inj (hends.plainFinished.symm.trans hbareRoot)
  rw [hwork name, hbareWork name]
  exact hends.work

end Grammar

/-- If a parse without memory finishes, the parse with memory does so with the same answer,
and does no more work for the phrases of any name, counting the results that it reuses as
calls.  In both parses an action runs once for each phrase of its rule that succeeds. -/
theorem Grammar.memory_adds_no_work (grammar : Grammar) (hexclusive : grammar.tablesInUse.Nodup)
    (source : Source) (semantics : Semantics Value) (capacity : MemoCapacity)
    {plain memoizing : Machine Value} (hplain : plain.HasTablesOf grammar)
    (hmemoizing : memoizing.HasTablesOf grammar) {steps more : Nat} (hsteps : steps ≤ more)
    {answer : Except ParseError (Phrase Value)} {bare : Machine Value}
    (hends : grammar.parse ⟨source, semantics, .none⟩ steps plain = .finished answer bare) :
    ∃ after, grammar.parse ⟨source, semantics, capacity⟩ more memoizing =
        .finished answer after ∧
      ∀ name ≠ "",
        (after.counters.rule name).calls + (after.counters.rule name).reused ≤
            (bare.counters.rule name).calls ∧
          (after.counters.rule name).succeeded ≤ (bare.counters.rule name).succeeded ∧
          (after.counters.rule name).failed ≤ (bare.counters.rule name).failed ∧
          (semantics.hasAction name = true →
            after.actionRuns name = (after.counters.rule name).succeeded ∧
              bare.actionRuns name = (bare.counters.rule name).succeeded) := by
  have hanswers := parse_answers_unmemoized ⟨source, semantics, .none⟩ hplain rfl steps
  rw [hends] at hanswers
  obtain ⟨effect, heffect, _, hanswer⟩ := hanswers.of_finished trivial
  have hmemory := parse_answers_remembering hexclusive ⟨source, semantics, capacity⟩ hmemoizing
    hsteps
  rw [show grammar.rootAttempt source semantics steps 0 = .ok effect from heffect] at hmemory
  obtain ⟨after, hparse, _⟩ := hmemory
  have hsame : Machine.answer? ⟨source, semantics, capacity⟩ effect.matched
      (effect.applyTo (.opened "" "" 0)) effect.stop = some answer := hanswer
  rw [hsame] at hparse
  refine ⟨after, hparse, fun name hname => ?_⟩
  have hwork := work_of_parses hname hexclusive hplain hmemoizing hsteps hparse hends
  obtain ⟨hcalls, hsucceeded, hfailed⟩ := hwork
  simp only [Machine.work, Nat.add_zero, Nat.zero_add] at hcalls hsucceeded hfailed
  refine ⟨hcalls, hsucceeded, hfailed, fun haction => ⟨?_, ?_⟩⟩
  · exact actionRuns_of_parse hname haction hparse
  · exact actionRuns_of_parse hname haction hends

/-- A sum of two terms enters the body of a term three times without memory. -/
theorem Grammar.memory_adds_no_work_sums :
    let semantics : Semantics Nat := Semantics.empty.on "term" fun _ _ => .ok (some 1)
    let plain : Setting Nat := ⟨.ofText "x+x", semantics, .none⟩
    let memoizing : Setting Nat := ⟨.ofText "x+x", semantics, ⟨1, by decide⟩⟩
    Grammar.sums.tablesInUse.Nodup ∧
      ∃ answer bare after,
        Grammar.sums.parse plain 20 (Grammar.sums.machine plain) = .finished answer bare ∧
          Grammar.sums.parse memoizing 20 (Grammar.sums.machine memoizing) =
            .finished answer after ∧
          (bare.counters.rule "term").calls = 3 ∧
          (after.counters.rule "term").calls + (after.counters.rule "term").reused ≤ 3 ∧
          after.actionRuns "term" = (after.counters.rule "term").succeeded := by
  intro semantics plain memoizing
  have hexclusive : Grammar.sums.tablesInUse.Nodup := by decide
  have hfinishes : (Grammar.sums.parse plain 20 (Grammar.sums.machine plain)).FinishesWith
      fun _ bare => (bare.counters.rule "term").calls = 3 := by
    decide +kernel
  obtain ⟨answer, bare, hends, hcounted⟩ := hfinishes.exists_eq
  obtain ⟨after, hparse, hwork⟩ :=
    memory_adds_no_work Grammar.sums hexclusive (.ofText "x+x") semantics ⟨1, by decide⟩
      (machine_hasTablesOf Grammar.sums plain) (machine_hasTablesOf Grammar.sums memoizing)
      (Nat.le_refl 20) hends
  obtain ⟨hcalls, _, _, hruns⟩ := hwork "term" (by decide)
  have haction : semantics.hasAction "term" = true := by decide
  exact ⟨hexclusive, answer, bare, after, hends, hparse, hcounted, hcounted ▸ hcalls,
    (hruns haction).1⟩

end Packrat
