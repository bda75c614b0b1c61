import Packrat.Proofs.ParseAnswer
import Packrat.Proofs.Reachable

/-!
# Histories of a machine

A machine is used again and again: tables are added to it, parses begin and are judged or
broken off, primitives are called outside a parse, and faults end any of this anywhere.  All
that a later parse takes over from such a history is which tables were registered, in order.
-/

namespace Packrat

variable {Value : Type} {setting : Setting Value}

/-- Whatever is done to a machine. -/
inductive Deed (Value : Type) where
  | perform (primitive : Primitive)
  | note (entry : JournalEntry Value)
  /-- Begins a parse. -/
  | start
  /-- Judges what a root procedure leaves behind. -/
  | conclude (matched : Bool)

/-- The machine that is left, if any is. -/
def Outcome.left? {Result : Type} : Outcome Value Result → Option (Machine Value)
  | .finished _ machine | .faulted _ machine => some machine
  | .exhausted => none

theorem Outcome.left?_of_leadsTo {Result : Type} {outcome : Outcome Value Result}
    {machine : Machine Value} (hleads : outcome.LeadsTo machine) :
    outcome.left? = some machine := by
  cases outcome with
  | finished result left | faulted cause left => exact congrArg some hleads
  | exhausted => contradiction

/-- The table that a primitive registers. -/
def Primitive.label? : Primitive → Option TableLabel
  | .addTable name diagnosis => some ⟨name, diagnosis⟩
  | _ => none

namespace Deed

def label? : Deed Value → Option TableLabel
  | .perform primitive => primitive.label?
  | _ => none

/-- The machine after a deed, which may have ended in a fault. -/
def after (setting : Setting Value) (machine : Machine Value) : Deed Value → Machine Value
  | .perform primitive => (Machine.perform setting primitive machine).left?.getD machine
  | .note entry => machine.note entry
  | .start => machine.start setting
  | .conclude matched => (Machine.conclude setting matched machine).left?.getD machine

/-- The tables that are registered in the course of a history, in order. -/
def registered (history : List (Deed Value)) : List TableLabel :=
  history.filterMap label?

end Deed

namespace Machine

/-- What a machine becomes in the course of a history. -/
def afterAll (setting : Setting Value) (machine : Machine Value)
    (history : List (Deed Value)) : Machine Value :=
  history.foldl (Deed.after setting) machine

/-- A new machine on which the given tables have been registered. -/
def withTables (setting : Setting Value) (labels : List TableLabel) : Machine Value :=
  labels.foldl (fun machine label => machine.addTable setting label.name label.diagnosis) .initial

end Machine

/-! ## The tables in the course of a history -/

namespace Primitive

variable {primitive : Primitive}

theorem label?_of_attempt? {source : Source} {attempt : Attempt Value}
    (hattempt : primitive.attempt? source = some attempt) : primitive.label? = none := by
  cases primitive with
  | addTable => contradiction
  | _ => rfl

/-- Adding a table always succeeds. -/
theorem label?_of_fault {before after : Machine Value} {cause : Fault}
    (hperform : Machine.perform setting primitive before = .faulted cause after) :
    primitive.label? = none := by
  cases primitive with
  | addTable => contradiction
  | _ => rfl

end Primitive

/-- A step registers at most one table and gives no other one a new label. -/
theorem Core.Step.labels {primitive : Primitive} {before after : Core Value}
    {answer : Option Bool} (hstep : Core.Step setting primitive before answer after) :
    after.tables.map MemoTable.label =
      before.tables.map MemoTable.label ++ primitive.label?.toList := by
  cases hstep with
  | addTable _ name diagnosis => exact List.map_append
  | begin | reuse => exact (List.append_nil _).symm
  | @close _ _ _ part ticket =>
      exact (Machine.labels_filled ticket part before.tables).trans (List.append_nil _).symm
  | terminal _ hattempt =>
      rw [Primitive.label?_of_attempt? hattempt]
      exact (List.append_nil _).symm
  | hit _ _ htable | pending _ _ htable =>
      exact (MemoTable.labels_set htable (MemoTable.label_find _ _)).trans
        (List.append_nil _).symm
  | miss _ _ htable =>
      exact (MemoTable.labels_set htable (by simp)).trans (List.append_nil _).symm

/-- A fault comes before any table is touched. -/
theorem Machine.tables_of_fault {primitive : Primitive} {before after : Machine Value}
    {cause : Fault} (hperform : perform setting primitive before = .faulted cause after) :
    after.tables = before.tables := by
  rcases fault_of_perform hperform with ⟨_, rfl⟩ | hfault
  · rfl
  · obtain ⟨_, _, _, _, _, _, _, hcore⟩ := hfault.action
    exact congrArg Core.tables hcore

/-- Judging a parse leaves the tables as they are. -/
theorem Machine.tables_of_conclude {matched : Bool} {before after : Machine Value}
    (hconclude : (conclude setting matched before).LeadsTo after) :
    after.tables = before.tables := by
  rcases core_of_conclude hconclude with hcore | hcore <;> exact congrArg Core.tables hcore

/-- A deed registers at most one table and gives no other one a new label. -/
theorem Deed.labels_after (deed : Deed Value) (machine : Machine Value) :
    (deed.after setting machine).tables.map MemoTable.label =
      machine.tables.map MemoTable.label ++ deed.label?.toList := by
  cases deed with
  | perform primitive =>
      simp only [after, label?]
      cases hperform : Machine.perform setting primitive machine with
      | finished result left => exact (Machine.step_of_perform hperform).labels
      | faulted cause left =>
          rw [Primitive.label?_of_fault hperform, ← Machine.tables_of_fault hperform]
          exact (List.append_nil _).symm
      | exhausted =>
          cases primitive with
          | addTable => contradiction
          | _ => exact (List.append_nil _).symm
  | note entry => exact (List.append_nil _).symm
  | start => exact (Machine.labels_start setting machine).trans (List.append_nil _).symm
  | conclude matched =>
      have htables : (after setting machine (.conclude matched)).tables = machine.tables := by
        simp only [after]
        cases hconclude : Machine.conclude setting matched machine with
        | finished answer left | faulted cause left =>
            exact Machine.tables_of_conclude (by rw [hconclude]; rfl)
        | exhausted => rfl
      rw [htables]
      exact (List.append_nil _).symm

namespace Machine

theorem labels_afterAll (history : List (Deed Value)) (machine : Machine Value) :
    (machine.afterAll setting history).tables.map MemoTable.label =
      machine.tables.map MemoTable.label ++ Deed.registered history := by
  induction history generalizing machine with
  | nil => exact (List.append_nil _).symm
  | cons deed rest ih =>
      have hrest := ih (deed.after setting machine)
      rw [Deed.labels_after, List.append_assoc] at hrest
      rw [afterAll, List.foldl_cons, ← afterAll, hrest, Deed.registered, Deed.registered,
        List.filterMap_cons]
      cases deed.label? <;> rfl

theorem labels_withTables (setting : Setting Value) (labels : List TableLabel) :
    (withTables setting labels).tables.map MemoTable.label = labels :=
  Grammar.labels_addTables setting labels .initial

/-- Two machines whose tables bear the same labels start a parse in the same state. -/
theorem start_eq_of_labels {machine other : Machine Value}
    (hlabels : machine.tables.map MemoTable.label = other.tables.map MemoTable.label) :
    machine.start setting = other.start setting := by
  rw [start, start, reset_eq_of_tables]
  have hpairs := congrArg (List.map fun label => (label.name, label.diagnosis)) hlabels
  rwa [List.map_map, List.map_map] at hpairs

theorem start_afterAll (history : List (Deed Value)) :
    (Machine.initial.afterAll setting history).start setting =
      (withTables setting (Deed.registered history)).start setting := by
  apply start_eq_of_labels
  rw [labels_afterAll, labels_withTables]
  rfl

/-- Every history leads to a reachable machine. -/
theorem exists_reachable_afterAll {machine : Machine Value}
    (hmachine : ∃ intact, Reachable setting intact machine) (history : List (Deed Value)) :
    ∃ intact, Reachable setting intact (machine.afterAll setting history) := by
  induction history generalizing machine with
  | nil => exact hmachine
  | cons deed rest ih =>
      apply ih
      obtain ⟨intact, hreachable⟩ := hmachine
      cases deed with
      | perform primitive =>
          simp only [Deed.after]
          cases hperform : perform setting primitive machine with
          | finished result after => exact ⟨intact, hreachable.perform hperform⟩
          | faulted cause after => exact ⟨false, hreachable.interrupted hperform⟩
          | exhausted => exact ⟨intact, hreachable⟩
      | note entry => exact ⟨intact, hreachable.note entry⟩
      | start => exact ⟨true, hreachable.start⟩
      | conclude matched =>
          simp only [Deed.after]
          cases hconclude : conclude setting matched machine with
          | finished answer after | faulted cause after =>
              exact ⟨intact, hreachable.concluded (by rw [hconclude]; rfl)⟩
          | exhausted => exact ⟨intact, hreachable⟩

end Machine

/-! ## Procedures as histories -/

namespace Machine

theorem afterAll_append (machine : Machine Value) (first second : List (Deed Value)) :
    machine.afterAll setting (first ++ second) =
      (machine.afterAll setting first).afterAll setting second :=
  List.foldl_append

end Machine

namespace Procedure

/-- The tables that a procedure registers, in order. -/
def registered (setting : Setting Value) (procedure : Procedure Value)
    (machine : Machine Value) : List TableLabel :=
  (procedure.calls setting machine).filterMap fun call => call.primitive.label?

/-- Running a procedure, to its end or into a fault, is a history. -/
theorem exists_history {procedure : Procedure Value} {before after : Machine Value}
    (hleads : (procedure.run setting before).LeadsTo after) :
    ∃ history, before.afterAll setting history = after ∧
      Deed.registered history = procedure.registered setting before := by
  induction procedure generalizing before with
  | done matched => exact ⟨[], hleads, rfl⟩
  | fault cause => exact ⟨[], hleads, rfl⟩
  | exhausted => contradiction
  | look view ih => exact ih before.position hleads
  | note entry rest ih =>
      have hrest : ((rest.run setting) (before.note entry)).LeadsTo after := hleads
      obtain ⟨history, hafter, hregistered⟩ := ih hrest
      exact ⟨.note entry :: history, hafter, hregistered⟩
  | perform primitive rest ih =>
      simp only [run, Run.andThen] at hleads
      cases htest : Grammar.test setting primitive before with
      | finished result between =>
          rw [htest] at hleads
          obtain ⟨history, hafter, hregistered⟩ := ih result hleads
          obtain ⟨answer, hperform, _⟩ := Run.finished_of_map htest
          have hdeed : Deed.after setting before (.perform primitive) = between := by
            simp [Deed.after, hperform, Outcome.left?]
          refine ⟨.perform primitive :: history, ?_, ?_⟩
          · rw [Machine.afterAll, List.foldl_cons, hdeed]
            exact hafter
          · rw [registered, calls_perform setting htest, List.filterMap_cons, ← registered,
              ← hregistered]
            rfl
      | faulted cause left =>
          rw [htest] at hleads
          have hperform := Run.faulted_of_map htest
          have hdeed : Deed.after setting before (.perform primitive) = left := by
            simp [Deed.after, hperform, Outcome.left?]
          refine ⟨[.perform primitive], hdeed.trans hleads, ?_⟩
          simp [Deed.registered, Deed.label?, Primitive.label?_of_fault hperform, registered,
            calls, htest]
      | exhausted =>
          rw [htest] at hleads
          contradiction

/-- A parse is a history, whether or not it is judged in the end. -/
theorem exists_history_of_parse {root : Procedure Value} {before after : Machine Value}
    (hleads : (Machine.parse setting (root.run setting) before).LeadsTo after) :
    ∃ history, before.afterAll setting history = after ∧
      Deed.registered history = root.registered setting (before.start setting) := by
  simp only [Machine.parse, Run.andThen] at hleads
  cases hroot : root.run setting (before.start setting) with
  | finished matched between =>
      rw [hroot] at hleads
      have hbetween : (root.run setting (before.start setting)).LeadsTo between := by
        rw [hroot]
        rfl
      obtain ⟨history, hbetween, hregistered⟩ := exists_history hbetween
      refine ⟨.start :: history ++ [.conclude matched], ?_, ?_⟩
      · have hstarted : before.afterAll setting (.start :: history) = between := hbetween
        rw [Machine.afterAll_append, hstarted]
        simp [Machine.afterAll, Deed.after, Outcome.left?_of_leadsTo hleads]
      · rw [← hregistered, Deed.registered, List.filterMap_append]
        exact List.append_nil _
  | faulted cause left =>
      rw [hroot] at hleads
      have hleft : (root.run setting (before.start setting)).LeadsTo after := by
        rw [hroot]
        exact hleads
      obtain ⟨history, hleft, hregistered⟩ := exists_history hleft
      exact ⟨.start :: history, hleft, hregistered⟩
  | exhausted =>
      rw [hroot] at hleads
      contradiction

end Procedure

/-! ## Parsing after a history -/

namespace Machine

/-- Nothing but a new table makes a difference to a later parse. -/
theorem parse_afterAll_append (root : Run Value Bool) (history : List (Deed Value))
    {later : List (Deed Value)} (hlater : Deed.registered later = []) :
    parse setting root (Machine.initial.afterAll setting (history ++ later)) =
      parse setting root (Machine.initial.afterAll setting history) := by
  have hsame : Deed.registered (history ++ later) = Deed.registered history := by
    rw [Deed.registered, List.filterMap_append, ← Deed.registered, ← Deed.registered, hlater,
      List.append_nil]
  rw [parse, parse, start_afterAll, start_afterAll, hsame]

/-- A parse after a history ends as it does on a new machine with the same tables, whatever
its root procedure is.  So a parse that registers no table can be repeated. -/
theorem parse_after_history (setting : Setting Value) (history : List (Deed Value)) :
    (∀ root : Run Value Bool,
      parse setting root (Machine.initial.afterAll setting history) =
        parse setting root (withTables setting (Deed.registered history))) ∧
    ∀ (root : Procedure Value) (between : Machine Value),
      root.registered setting ((Machine.initial.afterAll setting history).start setting) = [] →
      (parse setting (root.run setting)
        (Machine.initial.afterAll setting history)).LeadsTo between →
      parse setting (root.run setting) between =
        parse setting (root.run setting) (Machine.initial.afterAll setting history) := by
  refine ⟨fun root => ?_, fun root between hregistered hleads => ?_⟩
  · rw [parse, parse, start_afterAll]
  · obtain ⟨later, rfl, hlater⟩ := Procedure.exists_history_of_parse hleads
    rw [← afterAll_append]
    exact parse_afterAll_append (root.run setting) history (hlater.trans hregistered)

/-- After an action has faulted inside an open phrase, a letter is parsed twice. -/
theorem parse_after_history_letter :
    let action : Action Nat := fun _ _ => .error .outOfRange
    let setting : Setting Nat := ⟨.ofText "a", Semantics.empty.on "digit" action, ⟨2, by decide⟩⟩
    let history : List (Deed Nat) :=
      [.perform (.addTable "letter" "a letter"), .start, .perform (.consult 0 false),
        .perform (.begin "digit" "a digit"), .perform (.close .accept)]
    let machine := Machine.initial.afterAll setting history
    let root : Procedure Nat :=
      .ofPrimitives [.consult 0 false, .next (.character 'a'), .close .accept]
    machine.frames.length = 1 ∧
      parse setting (root.run setting) machine =
        parse setting (root.run setting) (withTables setting [⟨"letter", "a letter"⟩]) ∧
      ∃ answer between, parse setting (root.run setting) machine = .finished answer between ∧
        parse setting (root.run setting) between = .finished answer between := by
  intro action setting history machine root
  obtain ⟨hfresh, hagain⟩ := parse_after_history setting history
  have hfinishes : (parse setting (root.run setting) machine).FinishesWith fun _ _ => True := by
    decide +kernel
  have hregistered : root.registered setting (machine.start setting) = [] := by decide +kernel
  obtain ⟨answer, between, hparse, _⟩ := hfinishes.exists_eq
  refine ⟨by decide +kernel, hfresh (root.run setting), answer, between, hparse, ?_⟩
  rw [hagain root between hregistered (by rw [hparse]; rfl)]
  exact hparse

end Machine

end Packrat
