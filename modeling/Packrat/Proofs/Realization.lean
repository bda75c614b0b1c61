import Packrat.Grammar.Evaluation
import Packrat.Proofs.AttemptSteps
import Packrat.Proofs.Core

/-!
# Runs that realize attempts

A run realizes an attempt if, on every machine whose memo tables are in order, it
finishes with the effect of the attempt on the cursor and the innermost phrase, and
leaves the tables in order.  What being in order means is a parameter: nothing may be
remembered at all, or what is remembered must be right.  The composition of runs
realizes the composition of attempts.
-/

namespace Packrat

variable {Value : Type}

/-- What is asked of memo tables before a run, and what is promised of them after it. -/
structure Regime (Value : Type) where
  Ready : List (MemoTable Value) → Prop
  Kept : List (MemoTable Value) → List (MemoTable Value) → Prop
  /-- Whether a run uses up its steps as soon as the attempt does. -/
  lockstep : Prop
  kept_refl : ∀ {tables}, Ready tables → Kept tables tables
  kept_trans : ∀ {first second third},
    Kept first second → Kept second third → Kept first third
  ready_of_kept : ∀ {before after}, Ready before → Kept before after → Ready after

/-- One machine is the other one after an effect, as far as the cursor and the phrases
go. -/
structure Machine.Undergoes (before after : Machine Value) (effect : Effect Value) :
    Prop where
  position : after.position = effect.stop
  stack : after.core.stack = before.core.stack.changeInnermost effect.applyTo

namespace Machine.Undergoes

variable {before between after : Machine Value} {effect first second : Effect Value}

theorem of_core_eq (hcore : after.core = before.core.undergo effect) :
    before.Undergoes after effect :=
  ⟨congrArg Core.position hcore, congrArg Core.stack hcore⟩

theorem still (machine : Machine Value) (matched : Bool) :
    machine.Undergoes machine (.still matched machine.position) :=
  .of_core_eq (Core.undergo_still machine.core matched).symm

theorem trans (hfirst : before.Undergoes between first)
    (hsecond : between.Undergoes after second) :
    before.Undergoes after (first.followedBy second) := by
  refine ⟨hsecond.position, ?_⟩
  have happly := funext (Effect.applyTo_followedBy first second)
  rw [hsecond.stack, hfirst.stack, Stack.changeInnermost_comp, ← happly]

/-- Of the open phrases only the innermost one changes. -/
theorem of_frames_eq_cons (hundergoes : before.Undergoes after effect)
    {phrase : Phrase Value} {ticket : Option Ticket} {outer : List (Frame Value)}
    (hframes : before.frames = ⟨phrase, ticket⟩ :: outer) :
    after.top = before.top ∧ after.frames = ⟨effect.applyTo phrase, ticket⟩ :: outer := by
  have hstack := hundergoes.stack
  simp only [core, hframes, Stack.changeInnermost] at hstack
  exact Prod.mk.inj hstack

end Machine.Undergoes

/-- The outcome is that of an attempt, seen from the machine on which it began. -/
def Outcome.Realizes (regime : Regime Value) (before : Machine Value)
    (outcome : Outcome Value Bool) : Except Halt (Effect Value) → Prop
  | .ok effect =>
      ∃ after, outcome = .finished effect.matched after ∧
        before.Undergoes after effect ∧ regime.Kept before.tables after.tables
  | .error (.faulted fault position) =>
      ∃ after, outcome = .faulted fault after ∧ after.position = position
  | .error .exhausted => regime.lockstep → outcome = .exhausted

/-- In lockstep, a run finishes with the effect of an attempt that ends. -/
theorem Outcome.Realizes.exists_effect {regime : Regime Value} {before after : Machine Value}
    {matched : Bool} {attempted : Except Halt (Effect Value)} (hlockstep : regime.lockstep)
    (hrealizes : (Outcome.finished matched after).Realizes regime before attempted) :
    ∃ effect, attempted = .ok effect ∧ effect.matched = matched ∧
      before.Undergoes after effect ∧ regime.Kept before.tables after.tables := by
  cases attempted with
  | ok effect =>
      obtain ⟨machine, hfinished, hafter, hkept⟩ := hrealizes
      obtain ⟨rfl, rfl⟩ := Outcome.finished.inj hfinished
      exact ⟨effect, rfl, rfl, hafter, hkept⟩
  | error halt =>
      cases halt with
      | exhausted =>
          have hexhausted := hrealizes hlockstep
          contradiction
      | faulted fault position =>
          obtain ⟨machine, hfaulted, _⟩ := hrealizes
          contradiction

def Run.Realizes (regime : Regime Value) (run : Run Value Bool)
    (attempt : Attempt Value) : Prop :=
  ∀ machine, regime.Ready machine.tables →
    (run machine).Realizes regime machine (attempt machine.position)

namespace Run.Realizes

variable {regime : Regime Value} {run : Run Value Bool} {attempt : Attempt Value}

theorem done (matched : Bool) :
    (Run.done matched).Realizes regime (.done matched) := by
  intro machine hready
  exact ⟨machine, rfl, .still machine matched, regime.kept_refl hready⟩

theorem fault (fault : Fault) : (Run.fault fault).Realizes regime (.fault fault) := by
  intro machine _
  exact ⟨machine, rfl, rfl⟩

theorem exhausted : Run.exhausted.Realizes regime .exhausted := by
  intro machine _ _
  rfl

theorem andThen {next : Bool → Run Value Bool} {nextAttempt : Bool → Attempt Value}
    (hrun : run.Realizes regime attempt)
    (hnext : ∀ matched, (next matched).Realizes regime (nextAttempt matched)) :
    (run.andThen next).Realizes regime (attempt.andThen nextAttempt) := by
  intro machine hready
  have hfirst := hrun machine hready
  simp only [Run.andThen, Attempt.andThen]
  cases hattempt : attempt machine.position with
  | error halt =>
      rw [hattempt] at hfirst
      cases halt with
      | exhausted =>
          intro hlockstep
          rw [hfirst hlockstep]
      | faulted fault position =>
          obtain ⟨after, houtcome, hposition⟩ := hfirst
          exact ⟨after, by rw [houtcome], hposition⟩
  | ok first =>
      rw [hattempt] at hfirst
      obtain ⟨between, houtcome, hbetween, hkept⟩ := hfirst
      have hsecond := hnext first.matched between (regime.ready_of_kept hready hkept)
      rw [hbetween.position] at hsecond
      simp only [houtcome]
      cases hrest : nextAttempt first.matched first.stop with
      | error halt =>
          rw [hrest] at hsecond
          cases halt with
          | exhausted => exact hsecond
          | faulted fault position => exact hsecond
      | ok second =>
          rw [hrest] at hsecond
          obtain ⟨after, hfinished, hafter, hkeptAfter⟩ := hsecond
          exact ⟨after, hfinished, hbetween.trans hafter,
            regime.kept_trans hkept hkeptAfter⟩

theorem ite {condition : Prop} [Decidable condition] {other : Run Value Bool}
    {otherAttempt : Attempt Value} (hrun : run.Realizes regime attempt)
    (hother : other.Realizes regime otherAttempt) :
    (if condition then run else other).Realizes regime
      (if condition then attempt else otherAttempt) := by
  split
  · exact hrun
  · exact hother

theorem all {Item : Type} {run : Item → Run Value Bool} {attempt : Item → Attempt Value}
    (items : List Item)
    (hrun : ∀ item ∈ items, (run item).Realizes regime (attempt item)) :
    (Run.all (items.map run)).Realizes regime (Attempt.all (items.map attempt)) := by
  induction items with
  | nil => exact done true
  | cons item rest ih =>
      have hfirst := hrun item List.mem_cons_self
      have hrest := ih fun other hother => hrun other (List.mem_cons_of_mem item hother)
      exact hfirst.andThen fun _ => .ite hrest (done false)

theorem any {Item : Type} {run : Item → Run Value Bool} {attempt : Item → Attempt Value}
    (items : List Item)
    (hrun : ∀ item ∈ items, (run item).Realizes regime (attempt item)) :
    (Run.any (items.map run)).Realizes regime (Attempt.any (items.map attempt)) := by
  induction items with
  | nil => exact done false
  | cons item rest ih =>
      have hfirst := hrun item List.mem_cons_self
      have hrest := ih fun other hother => hrun other (List.mem_cons_of_mem item hother)
      exact hfirst.andThen fun _ => .ite (done true) hrest

theorem ifAdvanced (start : Nat) (hrun : run.Realizes regime attempt) :
    (Grammar.ifAdvanced start run).Realizes regime (.ifAdvanced start attempt) := by
  intro machine hready
  simp only [Grammar.ifAdvanced, Run.look, Run.andThen, Attempt.ifAdvanced]
  by_cases hstill : machine.position = start
  · simp only [hstill, if_true]
    rw [← hstill]
    exact done true machine hready
  · simp only [hstill, if_false]
    exact hrun machine hready

theorem round {again : Run Value Bool} {againAttempt : Attempt Value}
    (hrun : run.Realizes regime attempt) (hagain : again.Realizes regime againAttempt) :
    ((Run.look Machine.position).andThen fun start =>
      run.andThen fun matched =>
        if matched then Grammar.ifAdvanced start again else Run.done true).Realizes regime
      (.round attempt againAttempt) := by
  have hrest : ∀ start (matched : Bool),
      (if matched then Grammar.ifAdvanced start again else Run.done true).Realizes regime
        (if matched then .ifAdvanced start againAttempt else .done true) := by
    intro start matched
    exact .ite (ifAdvanced start hagain) (done true)
  intro machine hready
  exact hrun.andThen (hrest machine.position) machine hready

/-- What a procedure remarks of itself is no part of its effect. -/
theorem remarked (name : String) (hrun : run.Realizes regime attempt) :
    (Grammar.remarked name run).Realizes regime attempt := by
  intro machine hready
  have houtcome := hrun machine hready
  simp only [Grammar.remarked, Run.look, Run.change, Run.andThen, Run.done]
  cases hattempt : attempt machine.position with
  | error halt =>
      rw [hattempt] at houtcome
      cases halt with
      | exhausted =>
          intro hlockstep
          rw [houtcome hlockstep]
      | faulted fault position =>
          obtain ⟨after, hfaulted, hposition⟩ := houtcome
          exact ⟨after, by rw [hfaulted], hposition⟩
  | ok effect =>
      rw [hattempt] at houtcome
      obtain ⟨after, hfinished, hafter, hkept⟩ := houtcome
      rw [hfinished]
      exact ⟨_, rfl, ⟨hafter.position, hafter.stack⟩, hkept⟩

end Run.Realizes

/-! ## Primitives -/

namespace Grammar

theorem map_some_getD (run : Run Value Bool) :
    (run.map some).map (fun result => result.getD true) = run := by
  funext machine
  simp only [Run.map, Run.andThen]
  cases run machine <;> rfl

variable (setting : Setting Value)

theorem test_close (closing : Closing) :
    test setting (.close closing) = Machine.close setting closing :=
  map_some_getD _

theorem test_next (terminal : Terminal) :
    test setting (.next terminal) = Machine.next setting terminal :=
  map_some_getD _

theorem test_ahead (terminal : Terminal) :
    test setting (.ahead terminal) = Machine.ahead setting terminal :=
  map_some_getD _

theorem test_aheadNot (terminal : Terminal) :
    test setting (.aheadNot terminal) = Machine.aheadNot setting terminal :=
  map_some_getD _

theorem test_consult (table : Nat) (inner : Bool) :
    test setting (.consult table inner) = Machine.consult table inner :=
  map_some_getD _

theorem test_reuse (use : PhraseUse) : test setting (.reuse use) = Machine.reuse use :=
  map_some_getD _

theorem test_begin (name diagnosis : String) (machine : Machine Value) :
    test setting (.begin name diagnosis) machine =
      .finished true (machine.begin name diagnosis none) := rfl

end Grammar

namespace Run.Realizes

variable {regime : Regime Value}

theorem of_core_eq {run : Run Value Bool} {attempt : Attempt Value}
    (hrun : ∀ machine, ∃ effect after, attempt machine.position = .ok effect ∧
      run machine = .finished effect.matched after ∧
        after.core = machine.core.undergo effect) : run.Realizes regime attempt := by
  intro machine hready
  obtain ⟨effect, after, hattempt, hfinished, hcore⟩ := hrun machine
  have htables : after.tables = machine.tables := congrArg Core.tables hcore
  rw [hattempt]
  refine ⟨after, hfinished, .of_core_eq hcore, ?_⟩
  rw [htables]
  exact regime.kept_refl hready

end Run.Realizes

/-! ## Enclosed bodies -/

section Closing

variable {regime : Regime Value} {setting : Setting Value} {body : Run Value Bool}
variable {attempt : Attempt Value} {before opened : Machine Value} {ticket : Option Ticket}

/-- The outcome is that of an enclosed attempt, begun on `before` and resumed with its
phrase open on `opened`; in the end the part is stored where the ticket says. -/
def Outcome.Closes (regime : Regime Value) (enclosure : Enclosure) (label : TableLabel)
    (ticket : Option Ticket) (before opened : Machine Value)
    (outcome : Outcome Value Bool) :
    Except Halt (Effect Value × Phrase Value) → Prop
  | .ok (inside, part) =>
      ∃ after tables, outcome = .finished part.success after ∧
        before.Undergoes after
          (.ofPart enclosure.use part
            (enclosure.visits label before.position inside part)) ∧
        regime.Kept opened.tables tables ∧
        after.tables = Machine.filled ticket part tables
  | .error (.faulted fault position) =>
      ∃ after, outcome = .faulted fault after ∧ after.position = position
  | .error .exhausted => regime.lockstep → outcome = .exhausted

theorem Grammar.closedAfter_closes (hbody : body.Realizes regime attempt)
    (enclosure : Enclosure) (label : TableLabel)
    (hposition : opened.position = before.position) (htop : opened.top = before.top)
    (hframes : opened.frames =
      ⟨.opened label.name label.diagnosis before.position, ticket⟩ :: before.frames)
    (hready : regime.Ready opened.tables) :
    (Grammar.closedAfter setting body (enclosure.closing true) (enclosure.closing false)
        opened).Closes regime enclosure label ticket before opened
      (Attempt.closed setting.source setting.semantics enclosure label attempt
        before.position) := by
  have hinside := hbody opened hready
  rw [hposition] at hinside
  have hclosing : ∀ matched : Bool,
      (if matched then enclosure.closing true else enclosure.closing false) =
        enclosure.closing matched := by
    intro matched
    cases matched <;> rfl
  simp only [Attempt.closed, Grammar.closedAfter, Run.andThen, Grammar.test_close, hclosing]
  cases hattempt : attempt before.position with
  | error halt =>
      rw [hattempt] at hinside
      cases halt with
      | exhausted =>
          intro hlockstep
          rw [hinside hlockstep]
      | faulted fault position =>
          obtain ⟨after, hfaulted, hplace⟩ := hinside
          exact ⟨after, by rw [hfaulted], hplace⟩
  | ok inside =>
      rw [hattempt] at hinside
      obtain ⟨matched, hfinished, hmatched, hkept⟩ := hinside
      obtain ⟨htopAfter, hframesAfter⟩ := hmatched.of_frames_eq_cons hframes
      have hsettled : (enclosure.closing inside.matched).settled? setting.source
          setting.semantics matched.position
          (inside.applyTo (.opened label.name label.diagnosis before.position)) =
            enclosure.part? setting.source setting.semantics label before.position
              inside := by
        rw [hmatched.position]
        rfl
      simp only [hfinished]
      cases hpart : enclosure.part? setting.source setting.semantics label before.position
          inside with
      | error fault =>
          rw [hpart] at hsettled
          obtain ⟨after, hfaulted, hplace⟩ := Machine.close_of_fault hframesAfter hsettled
          exact ⟨after, hfaulted, hplace.trans hmatched.position⟩
      | ok part =>
          rw [hpart] at hsettled
          obtain ⟨after, hclosed, hcore⟩ := Machine.close_of_settled hframesAfter hsettled
          have hsuccess := Closing.success_of_settled? hsettled
          refine ⟨after, matched.tables, ?_, ⟨?_, ?_⟩, hkept, congrArg Core.tables hcore⟩
          · rw [hclosed, hsuccess]
          · rw [Effect.stop_ofPart]
            exact congrArg Core.position hcore
          · rw [hcore, Effect.applyTo_ofPart, Enclosure.use_closing, htopAfter, htop]
            rfl

end Closing

end Packrat
