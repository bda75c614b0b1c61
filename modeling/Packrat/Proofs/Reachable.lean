import Packrat.Engine.Parse
import Packrat.Proofs.Course
import Packrat.Script.Session

/-!
# Reachable machines

A machine is reachable if primitives, in any order and inside a parse or outside, lead to
it.  A primitive that faults on its own leaves the machine as it is, so only the fault of
an action leads to a machine of its own kind: its phrase has been popped without having
been closed.  Such a machine stays marked until the next parse resets it.
-/

namespace Packrat

variable {Value : Type} {setting : Setting Value}

/-- The machine that is left, with a result or with a fault. -/
def Outcome.LeadsTo {Result : Type} (machine : Machine Value) :
    Outcome Value Result → Prop
  | .finished _ after | .faulted _ after => after = machine
  | .exhausted => False

namespace Machine

/-- The machines that are reached in some session, each with whether no action has faulted
since the latest reset. -/
inductive Reachable (setting : Setting Value) : Bool → Machine Value → Prop where
  | initial : Reachable setting true .initial
  | note {intact : Bool} {before : Machine Value} (entry : JournalEntry Value)
      (hbefore : Reachable setting intact before) :
      Reachable setting intact (before.note entry)
  | perform {intact : Bool} {before after : Machine Value} {primitive : Primitive}
      {result : Option Bool} (hbefore : Reachable setting intact before)
      (hperform : perform setting primitive before = .finished result after) :
      Reachable setting intact after
  | interrupted {intact : Bool} {before after : Machine Value} {primitive : Primitive}
      {cause : Fault} (hbefore : Reachable setting intact before)
      (hperform : perform setting primitive before = .faulted cause after) :
      Reachable setting false after
  | start {intact : Bool} {before : Machine Value}
      (hbefore : Reachable setting intact before) :
      Reachable setting true (before.start setting)
  | concluded {intact matched : Bool} {before after : Machine Value}
      (hbefore : Reachable setting intact before)
      (hconclude : (conclude setting matched before).LeadsTo after) :
      Reachable setting intact after

/-- A fault at most takes the phrase off the stack whose action has faulted. -/
theorem core_of_fault {before after : Machine Value} {primitive : Primitive} {cause : Fault}
    (hperform : perform setting primitive before = .faulted cause after) :
    after.core = before.core ∨
      ∃ frame outer, primitive = .close .accept ∧ before.frames = frame :: outer ∧
        after.core = { before.core with stack := (before.top, outer) } := by
  rcases fault_of_perform hperform with ⟨_, rfl⟩ | hfault
  · exact .inl rfl
  · obtain ⟨_, _, outer, _, hframes, _, _, hcore⟩ := hfault.action
    exact .inr ⟨_, outer, hfault.primitive_eq, hframes, hcore⟩

/-- Judging a parse at most empties the top phrase. -/
theorem core_of_conclude {matched : Bool} {before after : Machine Value}
    (hconclude : (conclude setting matched before).LeadsTo after) :
    after.core = before.core ∨
      after.core = { before.core with stack := (.opened "" "" 0, before.frames) } := by
  by_cases hframes : before.frames.isEmpty
  · right
    simp only [conclude, hframes, if_true] at hconclude
    cases matched with
    | true =>
        obtain rfl := hconclude
        rfl
    | false =>
        simp only [Bool.false_eq_true, if_false] at hconclude
        split at hconclude <;> obtain rfl := hconclude <;> rfl
  · left
    simp only [conclude, hframes, Bool.false_eq_true, if_false] at hconclude
    rw [hconclude]

/-- Calls that finish stay on reachable machines. -/
theorem Reachable.of_course {intact : Bool} {before after : Machine Value}
    {calls : List (Call Value)} (hbefore : Reachable setting intact before)
    (hcourse : Course setting before calls after) : Reachable setting intact after := by
  induction hcourse with
  | done => exact hbefore
  | note entry _ ih => exact ih (hbefore.note entry)
  | call htest _ ih =>
      obtain ⟨_, hperform, _⟩ := Run.finished_of_map htest
      exact ih (hbefore.perform hperform)

end Machine

/-! ## Runs -/

/-- An outcome is a reachable machine, and an intact one unless an action has faulted. -/
def Outcome.StaysReachable {Result : Type} (setting : Setting Value) (intact : Bool) :
    Outcome Value Result → Prop
  | .finished _ after => Machine.Reachable setting intact after
  | .faulted cause after =>
      Machine.Reachable setting intact after ∨
        Machine.Reachable setting false after ∧ setting.ActionFaults cause
  | .exhausted => True

def Run.KeepsReachable {Result : Type} (setting : Setting Value) (run : Run Value Result) :
    Prop :=
  ∀ (intact : Bool) (before : Machine Value), Machine.Reachable setting intact before →
    (run before).StaysReachable setting intact

namespace Run.KeepsReachable

variable {Result Next : Type} {run : Run Value Result} {next : Result → Run Value Next}

theorem done (result : Result) : KeepsReachable setting (Run.done result) :=
  fun _ _ hbefore => hbefore

theorem exhausted : KeepsReachable setting (Run.exhausted : Run Value Result) :=
  fun _ _ _ => trivial

theorem look (view : Machine Value → Result) : KeepsReachable setting (Run.look view) :=
  fun _ _ hbefore => hbefore

theorem andThen (hrun : KeepsReachable setting run)
    (hnext : ∀ result, KeepsReachable setting (next result)) :
    KeepsReachable setting (run.andThen next) := by
  intro intact before hbefore
  have hbetween := hrun intact before hbefore
  unfold Run.andThen
  cases hresult : run before with
  | finished result between =>
      rw [hresult] at hbetween
      exact hnext result intact between hbetween
  | faulted cause after =>
      rw [hresult] at hbetween
      exact hbetween
  | exhausted => trivial

theorem ite {condition : Prop} [Decidable condition] {other : Run Value Result}
    (hrun : KeepsReachable setting run) (hother : KeepsReachable setting other) :
    KeepsReachable setting (if condition then run else other) := by
  split
  · exact hrun
  · exact hother

theorem perform (primitive : Primitive) :
    KeepsReachable setting (Machine.perform setting primitive) := by
  intro intact before hbefore
  cases hperform : Machine.perform setting primitive before with
  | finished result after => exact hbefore.perform hperform
  | faulted cause after =>
      rcases Machine.fault_of_perform hperform with ⟨_, rfl⟩ | haction
      · exact .inl hbefore
      · exact .inr ⟨hbefore.interrupted hperform, haction.actionFaults⟩
  | exhausted => trivial

theorem conclude (matched : Bool) : KeepsReachable setting (Machine.conclude setting matched) := by
  intro intact before hbefore
  cases hconclude : Machine.conclude setting matched before with
  | finished answer after => exact hbefore.concluded (by rw [hconclude]; rfl)
  | faulted cause after => exact .inl (hbefore.concluded (by rw [hconclude]; rfl))
  | exhausted => trivial

/-- A parse starts anew, so it does not matter what was reached before. -/
theorem staysReachable_parse {root : Run Value Bool} (hroot : KeepsReachable setting root)
    {intact : Bool} {before : Machine Value} (hbefore : Machine.Reachable setting intact before) :
    (Machine.parse setting root before).StaysReachable setting true :=
  (hroot.andThen conclude) true (before.start setting) hbefore.start

end Run.KeepsReachable

/-! ## Scripts -/

namespace Script

theorem remark_keepsReachable (result : Option Bool) :
    Run.KeepsReachable setting (remark result : Run Value (Option Bool)) :=
  fun _ _ hbefore => hbefore.note _

/-- The induction is on the steps that are allowed, for a step and for a list at once. -/
theorem evaluate_keepsReachable (bound : Nat) :
    (∀ step, Run.KeepsReachable setting (evaluate setting bound step)) ∧
      ∀ steps, Run.KeepsReachable setting (evaluateAll setting bound steps) := by
  induction bound with
  | zero => exact ⟨fun _ => .exhausted, fun _ => .exhausted⟩
  | succ bound ih =>
      obtain ⟨hstep, hsteps⟩ := ih
      constructor
      · intro step
        cases step with
        | perform primitive => exact .andThen (.perform primitive) remark_keepsReachable
        | position => exact remark_keepsReachable none
        | summary => exact fun _ _ hbefore => hbefore.note _
        | choose condition yes no =>
            exact (hstep condition).andThen fun _ => .ite (hsteps yes) (hsteps no)
        | repeatWhile condition body =>
            refine (hstep condition).andThen fun _ => .ite ?_ (.done none)
            exact (hsteps body).andThen fun _ => hstep (.repeatWhile condition body)
        | repeatTimes count body =>
            cases count with
            | zero => exact .done none
            | succ count =>
                exact (hsteps body).andThen fun _ => hstep (.repeatTimes count body)
      · intro steps
        cases steps with
        | nil => exact .done none
        | cons step rest => exact (hstep step).andThen fun _ => hsteps rest

/-- A report is made on whatever machine is left. -/
theorem reachable_of_outcome {Result : Type} {outcome : Outcome Value Result} {intact : Bool}
    {verdict : Result → Verdict Value} {mark : Nat} {report : Report Value}
    {after : Machine Value} (houtcome : outcome.StaysReachable setting intact)
    (hreport : Report.ofOutcome? setting.source verdict mark outcome = some (report, after)) :
    Machine.Reachable setting intact after ∨
      Machine.Reachable setting false after ∧ ∃ cause, setting.ActionFaults cause := by
  cases outcome with
  | finished result left =>
      obtain ⟨_, rfl⟩ := Prod.mk.inj (Option.some.inj hreport)
      exact .inl houtcome
  | faulted cause left =>
      obtain ⟨_, rfl⟩ := Prod.mk.inj (Option.some.inj hreport)
      exact houtcome.imp_right fun hfaulted => ⟨hfaulted.1, cause, hfaulted.2⟩
  | exhausted => contradiction

/-- What a script leaves is reachable if what it finds is; as long as no action faults, it
is intact, too, if it was or if the script is a parse. -/
theorem reachable_of_run {bound : Nat} {script : Script} {intact : Bool}
    {before after : Machine Value} {report : Report Value}
    (hbefore : Machine.Reachable setting intact before)
    (hrun : run setting bound script before = some (report, after)) :
    Machine.Reachable setting (intact || !script.direct) after ∨
      Machine.Reachable setting false after ∧ ∃ cause, setting.ActionFaults cause := by
  have hsteps : Run.KeepsReachable setting (evaluateAll setting bound script.steps) :=
    (evaluate_keepsReachable bound).2 script.steps
  cases hdirect : script.direct with
  | true =>
      simp only [run, hdirect, if_true] at hrun
      simpa using reachable_of_outcome (hsteps intact before hbefore) hrun
  | false =>
      simp only [run, hdirect, Bool.false_eq_true, if_false] at hrun
      have hroot : Run.KeepsReachable setting (root setting bound script.steps script.answer) :=
        hsteps.andThen fun _ => .look _
      simpa using reachable_of_outcome (hroot.staysReachable_parse hbefore) hrun

end Script

end Packrat
