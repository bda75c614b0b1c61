import Packrat.Proofs.Work

/-!
# How often an action runs

In the procedures of a grammar only the phrases of rules bear names, and they are closed as
accepted or rejected rules.  So, whatever is remembered, an action runs as often as a phrase
of its rule succeeds.  What has been counted never becomes less.
-/

namespace Packrat

variable {Value : Type} {setting : Setting Value} {name : String}

/-- More has been done, and where there is an action it has run once for each phrase that has
succeeded meanwhile. -/
structure Work.GrowsTo (acts : Bool) (before after : Work) : Prop where
  calls_le : before.calls ≤ after.calls
  succeeded_le : before.succeeded ≤ after.succeeded
  failed_le : before.failed ≤ after.failed
  acted : acts = true → after.acted + before.succeeded = before.acted + after.succeeded

namespace Work.GrowsTo

variable {acts : Bool} {first second third : Work}

theorem refl (acts : Bool) (work : Work) : work.GrowsTo acts work :=
  ⟨Nat.le_refl _, Nat.le_refl _, Nat.le_refl _, fun _ => rfl⟩

theorem trans (hfirst : first.GrowsTo acts second) (hsecond : second.GrowsTo acts third) :
    first.GrowsTo acts third where
  calls_le := Nat.le_trans hfirst.calls_le hsecond.calls_le
  succeeded_le := Nat.le_trans hfirst.succeeded_le hsecond.succeeded_le
  failed_le := Nat.le_trans hfirst.failed_le hsecond.failed_le
  acted hacts := by
    have hactedFirst := hfirst.acted hacts
    have hactedSecond := hsecond.acted hacts
    omega

end Work.GrowsTo

/-! ## The names of open phrases -/

namespace Core

/-- The names of the open phrases, innermost first. -/
def openNames (core : Core Value) : List String :=
  core.stack.2.map fun frame => frame.phrase.name

theorem names_changeInnermost {change : Phrase Value → Phrase Value}
    (hchange : ∀ phrase, (change phrase).name = phrase.name) (stack : Stack Value) :
    (stack.changeInnermost change).2.map (fun frame => frame.phrase.name) =
      stack.2.map fun frame => frame.phrase.name := by
  obtain ⟨top, frames⟩ := stack
  cases frames with
  | nil => rfl
  | cons frame outer => simp only [Stack.changeInnermost, List.map_cons, hchange]

theorem openNames_undergo (core : Core Value) (effect : Effect Value) :
    (core.undergo effect).openNames = core.openNames :=
  names_changeInnermost (fun phrase => ((Phrase.Continues.refl phrase).applyTo effect).name_eq)
    core.stack

theorem openNames_taking (core : Core Value) (use : PhraseUse) (part : Phrase Value) :
    (core.taking use part).openNames = core.openNames :=
  names_changeInnermost (fun phrase => ((Phrase.Continues.refl phrase).absorb _ _ _).name_eq)
    core.stack

variable {before after : Core Value} {answer : Option Bool}

theorem Step.openNames_of_close {closing : Closing}
    (hstep : Core.Step setting (.close closing) before answer after) :
    after.openNames = before.openNames.tail := by
  obtain ⟨phrase, part, ticket, outer, hframes, _, _, rfl⟩ := hstep.eq_of_close
  rw [openNames, openNames, hframes]
  exact names_changeInnermost
    (fun phrase => ((Phrase.Continues.refl phrase).absorb _ _ _).name_eq) _

theorem Step.openNames_of_consult {index : Nat} {inner found : Bool} {table : MemoTable Value}
    (htable : before.tables[index]? = some table)
    (hstep : Core.Step setting (.consult index inner) before (some found) after) :
    after.openNames =
      if found then before.openNames
      else (if inner then "" else table.name) :: before.openNames := by
  cases found with
  | false =>
      obtain ⟨other, hother, _, rfl⟩ := hstep.eq_of_miss
      obtain rfl := Option.some.inj (htable.symm.trans hother)
      rfl
  | true =>
      generalize hfound : some true = result at hstep
      cases hstep with
      | hit | pending => rfl
      | miss => contradiction
      | terminal _ hattempt => simp [Primitive.attempt?] at hattempt

end Core

/-! ## Balanced procedures -/

/-- The same phrases are open as before, going by their names, and the work has grown. -/
structure Machine.BalancesTo (setting : Setting Value) (name : String)
    (before after : Machine Value) : Prop where
  names : after.core.openNames = before.core.openNames
  work : (before.work name).GrowsTo (setting.semantics.hasAction name) (after.work name)

namespace Machine.BalancesTo

variable {first second third : Machine Value}

theorem of_work_eq (hnames : second.core.openNames = first.core.openNames)
    (hwork : second.work name = first.work name) : first.BalancesTo setting name second :=
  ⟨hnames, hwork ▸ .refl _ _⟩

theorem trans (hfirst : first.BalancesTo setting name second)
    (hsecond : second.BalancesTo setting name third) : first.BalancesTo setting name third :=
  ⟨hsecond.names.trans hfirst.names, hfirst.work.trans hsecond.work⟩

end Machine.BalancesTo

namespace Procedure

/-- Wherever the procedure finishes, it has balanced. -/
def Balances (setting : Setting Value) (name : String) (procedure : Procedure Value) : Prop :=
  ∀ before after matched,
    procedure.run setting before = .finished matched after →
      before.BalancesTo setting name after

namespace Balances

variable {procedure : Procedure Value}

theorem done (matched : Bool) : (Procedure.done matched).Balances setting name := by
  intro before after result hfinished
  obtain ⟨_, rfl⟩ := Outcome.finished.inj hfinished
  exact .of_work_eq rfl rfl

theorem fault (cause : Fault) : (Procedure.fault cause).Balances setting name :=
  nofun

theorem exhausted : (Procedure.exhausted : Procedure Value).Balances setting name :=
  nofun

theorem look {view : Nat → Procedure Value}
    (hview : ∀ position, (view position).Balances setting name) :
    (Procedure.look view).Balances setting name :=
  fun before after matched hfinished => hview before.position before after matched hfinished

theorem andThen {next : Bool → Procedure Value} (hprocedure : procedure.Balances setting name)
    (hnext : ∀ matched, (next matched).Balances setting name) :
    (procedure.andThen next).Balances setting name := by
  intro before after result hfinished
  rw [run_andThen] at hfinished
  obtain ⟨matched, between, hfirst, hsecond⟩ := Run.finished_of_andThen hfinished
  exact (hprocedure _ _ _ hfirst).trans (hnext matched _ _ _ hsecond)

theorem ite {condition : Prop} [Decidable condition] {other : Procedure Value}
    (hprocedure : procedure.Balances setting name) (hother : other.Balances setting name) :
    (if condition then procedure else other).Balances setting name := by
  split
  · exact hprocedure
  · exact hother

theorem all {Item : Type} {procedure : Item → Procedure Value} (items : List Item)
    (hitem : ∀ item, (procedure item).Balances setting name) :
    (Procedure.all (items.map procedure)).Balances setting name := by
  induction items with
  | nil => exact done true
  | cons item rest ih => exact (hitem item).andThen fun _ => .ite ih (done false)

theorem any {Item : Type} {procedure : Item → Procedure Value} (items : List Item)
    (hitem : ∀ item, (procedure item).Balances setting name) :
    (Procedure.any (items.map procedure)).Balances setting name := by
  induction items with
  | nil => exact done false
  | cons item rest ih => exact (hitem item).andThen fun _ => .ite (done true) ih

theorem round {body again : Procedure Value} (hbody : body.Balances setting name)
    (hagain : again.Balances setting name) : (Procedure.round body again).Balances setting name :=
  .look fun _ => hbody.andThen fun _ => .ite (.look fun _ => .ite (done true) hagain) (done true)

theorem remarked (title : String) (hprocedure : procedure.Balances setting name) :
    (Procedure.remarked title procedure).Balances setting name := by
  intro before after result hfinished
  obtain ⟨between, hbetween, hcore, hwork⟩ := finished_of_remarked hfinished
  have hnames : after.core.openNames = between.core.openNames := congrArg Core.openNames hcore
  exact (hprocedure _ _ _ hbetween).trans (.of_work_eq hnames (hwork name))

/-! ## Terminals and phrases -/

theorem terminal {primitive : Primitive} {attempt : Attempt Value}
    (hattempt : primitive.attempt? setting.source = some attempt) :
    (Procedure.call primitive).Balances setting name := by
  intro before after matched hfinished
  rw [run_call] at hfinished
  obtain ⟨answer, _, hstep⟩ := Grammar.step_of_test hfinished
  obtain ⟨effect, _, _, hcore⟩ := hstep.eq_of_attempt hattempt
  exact .of_work_eq (hcore ▸ before.core.openNames_undergo effect)
    (Grammar.work_of_terminal hattempt hfinished)

theorem reuse (use : PhraseUse) :
    (Procedure.call (.reuse use)).Balances setting name := by
  intro before after matched hfinished
  rw [run_call, Grammar.test_reuse] at hfinished
  have hstep : Core.Step setting (.reuse use) before.core (some matched) after.core :=
    Machine.step_of_reuse hfinished
  obtain ⟨part, _, _, hcore⟩ := hstep.eq_of_reuse
  exact .of_work_eq (hcore ▸ before.core.openNames_taking use part) (Machine.work_reuse hfinished)

/-- A phrase that bears a name is that of a rule, so its action runs exactly if it
succeeds. -/
theorem closedAfter (hname : name ≠ "") {enclosure : Enclosure} {title : String}
    (htitle : enclosure = .rule ∨ title = "") (hbody : procedure.Balances setting name)
    {opened after : Machine Value} {names : List String} {matched : Bool}
    (hopened : opened.core.openNames = title :: names)
    (hclosed : (Procedure.closedAfter enclosure procedure).run setting opened =
      .finished matched after) :
    after.core.openNames = names ∧
      (opened.work name).GrowsTo (setting.semantics.hasAction name) (after.work name) := by
  rw [Procedure.closedAfter, run_andThen] at hclosed
  obtain ⟨result, between, hinside, hclose⟩ := Run.finished_of_andThen hclosed
  have hbalances := hbody _ _ _ hinside
  have hnames := hbalances.names.trans hopened
  rw [run_call, Grammar.test_close] at hclose
  have hafter := (Machine.step_of_close hclose).openNames_of_close
  rw [hnames] at hafter
  refine ⟨hafter, hbalances.work.trans ?_⟩
  cases hframes : between.frames with
  | nil => simp [Core.openNames, Machine.core, hframes] at hnames
  | cons frame outer =>
      obtain ⟨phrase, ticket⟩ := frame
      have hphrase : phrase.name = title := by
        simp only [Core.openNames, Machine.core, hframes, List.map_cons, List.cons.injEq]
          at hnames
        exact hnames.1
      rw [Machine.work_close hname hframes hclose]
      by_cases hsame : phrase.name = name
      · obtain rfl : enclosure = .rule := by
          refine htitle.resolve_right fun hempty => hname ?_
          rw [← hsame, hphrase, hempty]
        refine ⟨Nat.le_refl _, Nat.le_add_right _ _, Nat.le_add_right _ _, fun hacts => ?_⟩
        cases result with
        | false => simp [hsame, Enclosure.closing, Closing.succeeds]
        | true =>
            simp only [hsame, hacts, Enclosure.closing, Closing.succeeds, if_true, and_self]
            omega
      · simp only [hsame, false_and, if_false, Nat.add_zero]
        exact .refl _ _

theorem beginning (hname : name ≠ "") {enclosure : Enclosure} {label : TableLabel}
    (hlabel : enclosure = .rule ∨ label.name = "") (hbody : procedure.Balances setting name) :
    (Procedure.beginning enclosure label procedure).Balances setting name := by
  intro before after matched hfinished
  have hopened : (before.begin label.name label.diagnosis none).core.openNames =
      label.name :: before.core.openNames := rfl
  obtain ⟨hnames, hwork⟩ := closedAfter hname hlabel hbody hopened hfinished
  refine ⟨hnames, .trans ?_ hwork⟩
  rw [Machine.work_begin hname]
  exact ⟨Nat.le_add_right _ _, Nat.le_refl _, Nat.le_refl _, fun _ => rfl⟩

theorem consulting (hname : name ≠ "") {enclosure : Enclosure} {index : Nat} {inner : Bool}
    (hinner : enclosure = .rule ∨ inner = true) (hbody : procedure.Balances setting name) :
    (Procedure.consulting enclosure index inner procedure).Balances setting name := by
  intro before after matched hfinished
  obtain ⟨found, asked, hconsult, hrest⟩ := Run.finished_of_andThen hfinished
  rw [Grammar.test_consult] at hconsult
  cases htable : before.tables[index]? with
  | none =>
      rw [Machine.consult_of_no_table inner htable] at hconsult
      contradiction
  | some table =>
      have hstep : Core.Step setting (.consult index inner) before.core (some found)
          asked.core := Machine.step_of_consult hconsult
      have hnames := hstep.openNames_of_consult htable
      have hasked := Machine.work_consult hname htable hconsult
      have hgrows : (before.work name).GrowsTo (setting.semantics.hasAction name)
          (asked.work name) := by
        rw [hasked]
        exact ⟨Nat.le_add_right _ _, Nat.le_refl _, Nat.le_refl _, fun _ => rfl⟩
      cases found with
      | true =>
          have hreused : asked.BalancesTo setting name after := reuse enclosure.use _ _ _ hrest
          exact ⟨hreused.names.trans hnames, hgrows.trans hreused.work⟩
      | false =>
          have htitle : enclosure = .rule ∨ (if inner then "" else table.name) = "" := by
            rcases hinner with hrule | rfl
            · exact .inl hrule
            · exact .inr rfl
          obtain ⟨hclosed, hwork⟩ := closedAfter hname htitle hbody hnames hrest
          exact ⟨hclosed, hgrows.trans hwork⟩

theorem inside (hname : name ≠ "") (opening : Opening) (enclosure : Enclosure)
    (hbody : procedure.Balances setting name) :
    (Procedure.inside opening enclosure procedure).Balances setting name := by
  cases opening with
  | plain diagnosis => exact hbody.beginning hname (.inr rfl)
  | memoized table => exact hbody.consulting hname (.inr rfl)

theorem ofRule (hname : name ≠ "") (rule : Rule) (hbody : procedure.Balances setting name) :
    (Procedure.ofRule rule procedure).Balances setting name := by
  rw [Procedure.ofRule]
  cases rule.table with
  | none => exact hbody.beginning hname (.inl rfl)
  | some table => exact hbody.consulting hname (.inl rfl)

end Balances

end Procedure

namespace Grammar

/-- The induction is on the steps, since a rule leads to expressions that are no parts of it. -/
theorem procedure_balances (hname : name ≠ "") (grammar : Grammar) (steps : Nat)
    (expression : Expression) :
    (grammar.procedure steps expression).Balances setting name := by
  induction steps generalizing expression with
  | zero => exact .exhausted
  | succ steps ih =>
      cases expression with
      | terminal | ahead | aheadNot => exact .terminal rfl
      | rule title =>
          rw [procedure]
          cases grammar.rule? title with
          | none => exact .fault .outOfRange
          | some rule =>
              have hbody := Procedure.Balances.all rule.body ih
              exact (hbody.ofRule hname rule).remarked title
      | choice alternatives => exact .any alternatives ih
      | optional body => exact (ih body).andThen fun _ => .done true
      | star body => exact (ih body).round (ih (.star body))
      | plus body => exact (ih body).andThen fun _ => .ite (ih (.star body)) (.done false)
      | sequence opening parts =>
          exact Procedure.Balances.inside hname opening .sequence (.all parts ih)
      | andPredicate opening argument => exact (ih argument).inside hname opening .andPredicate
      | notPredicate opening argument => exact (ih argument).inside hname opening .notPredicate

/-- The work of a parse is that of its root procedure. -/
theorem finished_of_parse {grammar : Grammar} {steps : Nat} {machine after : Machine Value}
    {answer : Except ParseError (Phrase Value)}
    (hparse : grammar.parse setting steps machine = .finished answer after) :
    ∃ matched between,
      (grammar.rootProcedure steps).run setting (machine.start setting) =
        .finished matched between ∧ ∀ name, after.work name = between.work name := by
  obtain ⟨matched, between, hroot, hconclude⟩ := Run.finished_of_andThen hparse
  rw [root_eq_run] at hroot
  exact ⟨matched, between, hroot, fun name => Machine.work_conclude hconclude⟩

theorem rootProcedure_balances (hname : name ≠ "") (grammar : Grammar) (steps : Nat) :
    (grammar.rootProcedure steps).Balances setting name := by
  rw [rootProcedure]
  cases grammar.rules with
  | nil => exact .fault .outOfRange
  | cons rule rest => exact procedure_balances hname grammar steps (.rule rule.name)

/-- In a parse that finishes, an action has run as often as a phrase of its rule has
succeeded. -/
theorem actionRuns_of_parse (hname : name ≠ "") {grammar : Grammar} {steps : Nat}
    {machine after : Machine Value} {answer : Except ParseError (Phrase Value)}
    (haction : setting.semantics.hasAction name = true)
    (hparse : grammar.parse setting steps machine = .finished answer after) :
    after.actionRuns name = (after.counters.rule name).succeeded := by
  obtain ⟨matched, between, hroot, hwork⟩ := finished_of_parse hparse
  have hbalances := rootProcedure_balances hname grammar steps _ _ _ hroot
  have hacted := hbalances.work.acted haction
  rw [Machine.work_start, ← hwork] at hacted
  simpa [Machine.work] using hacted

end Grammar

end Packrat
