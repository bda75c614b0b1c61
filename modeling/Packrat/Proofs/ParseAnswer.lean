import Packrat.Proofs.Unmemoized

/-!
# From the root procedure to the parse

A parse starts at the beginning of the source, with nothing open and with tables that
hold nothing.  It is judged by what its root attempt leaves behind: the cursor and the
top phrase.
-/

namespace Packrat

variable {Value : Type}

namespace Machine

/-- The machine has the tables of the grammar, whatever they hold. -/
def HasTablesOf (machine : Machine Value) (grammar : Grammar) : Prop :=
  machine.tables.map MemoTable.label = grammar.tables

variable {setting : Setting Value} {machine : Machine Value} {grammar : Grammar}

theorem labels_start (setting : Setting Value) (machine : Machine Value) :
    (machine.start setting).tables.map MemoTable.label =
      machine.tables.map MemoTable.label := by
  have htables : (machine.start setting).tables =
      machine.tables.map (·.reset setting.capacity.value) := rfl
  rw [htables, List.map_map]
  rfl

theorem occupied_start {table : MemoTable Value}
    (htable : table ∈ (machine.start setting).tables) : table.occupied = [] := by
  obtain ⟨old, _, rfl⟩ := List.mem_map.mp htable
  exact MemoTable.occupied_empty old.name old.diagnosis setting.capacity.value

theorem slots_start (hcapacity : setting.capacity.value = 0) {table : MemoTable Value}
    (htable : table ∈ (machine.start setting).tables) : table.slots = [] := by
  obtain ⟨old, _, rfl⟩ := List.mem_map.mp htable
  apply List.eq_nil_of_length_eq_zero
  rw [MemoTable.length_slots_reset, hcapacity]

/-- A parse without slots starts on tables that remember nothing and never will. -/
theorem HasTablesOf.unmemoized_start (hmachine : machine.HasTablesOf grammar)
    (hcapacity : setting.capacity.value = 0) :
    (Regime.unmemoized grammar).Ready (machine.start setting).tables :=
  ⟨(labels_start setting machine).trans hmachine, fun _ htable => slots_start hcapacity htable⟩

/-- The answer of a parse whose root procedure has left nothing open. -/
def answer? (setting : Setting Value) (matched : Bool) (top : Phrase Value)
    (position : Nat) : Option (Except ParseError (Phrase Value)) :=
  if matched then some (.ok (rootPhrase top position))
  else (report? setting top position).map .error

theorem conclude_eq (setting : Setting Value) {machine : Machine Value}
    (hframes : machine.frames = []) (matched : Bool) :
    ∃ after,
      conclude setting matched machine =
        (match answer? setting matched machine.top machine.position with
        | some answer => .finished answer after
        | none => .faulted .outOfRange after) ∧
      after.position = machine.position := by
  have hempty : machine.frames.isEmpty = true := by rw [hframes]; rfl
  simp only [conclude, hempty, if_true, answer?]
  cases matched with
  | true => exact ⟨_, rfl, rfl⟩
  | false =>
      simp only [Bool.false_eq_true, if_false, publishTables]
      cases report? setting machine.top machine.position with
      | some error => exact ⟨_, rfl, rfl⟩
      | none => exact ⟨_, rfl, rfl⟩

end Machine

/-- The outcome of a parse is the one that its root attempt leads to. -/
def Outcome.Answers (setting : Setting Value) (lockstep : Prop)
    (outcome : Outcome Value (Except ParseError (Phrase Value))) :
    Except Halt (Effect Value) → Prop
  | .ok effect =>
      ∃ after,
        outcome =
          (match Machine.answer? setting effect.matched
            (effect.applyTo (.opened "" "" 0)) effect.stop with
          | some answer => .finished answer after
          | none => .faulted .outOfRange after) ∧
        after.position = effect.stop
  | .error (.faulted fault position) =>
      ∃ after, outcome = .faulted fault after ∧ after.position = position
  | .error .exhausted => lockstep → outcome = .exhausted

/-- In lockstep, only a root attempt that ends lets a parse finish. -/
theorem Outcome.Answers.of_finished {setting : Setting Value} {lockstep : Prop}
    {answer : Except ParseError (Phrase Value)} {after : Machine Value}
    {attempted : Except Halt (Effect Value)} (hlockstep : lockstep)
    (hanswers : (Outcome.finished answer after).Answers setting lockstep attempted) :
    ∃ effect, attempted = .ok effect ∧ after.position = effect.stop ∧
      Machine.answer? setting effect.matched (effect.applyTo (.opened "" "" 0))
        effect.stop = some answer := by
  cases attempted with
  | ok effect =>
      obtain ⟨machine, houtcome, hposition⟩ := hanswers
      cases hanswer : Machine.answer? setting effect.matched
          (effect.applyTo (.opened "" "" 0)) effect.stop with
      | none => simp [hanswer] at houtcome
      | some judged =>
          simp only [hanswer, Outcome.finished.injEq] at houtcome
          obtain ⟨rfl, rfl⟩ := houtcome
          exact ⟨effect, rfl, hposition, hanswer⟩
  | error halt =>
      cases halt with
      | exhausted =>
          have hexhausted := hanswers hlockstep
          contradiction
      | faulted fault position =>
          obtain ⟨machine, hfaulted, _⟩ := hanswers
          contradiction

/-- Whether a run has used up its steps can be seen. -/
instance Outcome.decidableExhausted {Result : Type} :
    (outcome : Outcome Value Result) → Decidable (outcome = .exhausted)
  | .finished _ _ => .isFalse nofun
  | .faulted _ _ => .isFalse nofun
  | .exhausted => .isTrue rfl

theorem Machine.parse_answers {regime : Regime Value} {setting : Setting Value}
    {root : Run Value Bool} {attempt : Attempt Value}
    (hroot : root.Realizes regime attempt) (machine : Machine Value)
    (hready : regime.Ready (machine.start setting).tables) :
    (parse setting root machine).Answers setting regime.lockstep (attempt 0) := by
  have hstart := hroot (machine.start setting) hready
  have hposition : (machine.start setting).position = 0 := rfl
  rw [hposition] at hstart
  simp only [parse, Run.andThen]
  cases hattempt : attempt 0 with
  | error halt =>
      rw [hattempt] at hstart
      cases halt with
      | exhausted =>
          intro hlockstep
          rw [hstart hlockstep]
      | faulted fault position =>
          obtain ⟨after, hfaulted, hplace⟩ := hstart
          exact ⟨after, by rw [hfaulted], hplace⟩
  | ok effect =>
      rw [hattempt] at hstart
      obtain ⟨after, hfinished, hafter, _⟩ := hstart
      obtain ⟨htop, hframes⟩ := Prod.mk.inj hafter.stack
      obtain ⟨judged, hconclude, hjudged⟩ :=
        conclude_eq setting hframes effect.matched
      rw [htop, hafter.position] at hconclude
      refine ⟨judged, ?_, hjudged.trans hafter.position⟩
      rw [hfinished]
      exact hconclude

namespace Grammar

/-- What the root rule does. -/
def rootAttempt (grammar : Grammar) (source : Source) (semantics : Semantics Value)
    (steps : Nat) : Attempt Value :=
  match grammar.rules with
  | [] => .fault .outOfRange
  | rule :: _ => grammar.attempt source semantics steps (.rule rule.name)

theorem root_realizes {regime : Regime Value} {grammar : Grammar}
    {setting : Setting Value} {steps more : Nat}
    (hrule : ∀ name, (grammar.evaluate setting more (.rule name)).Realizes regime
      (grammar.attempt setting.source setting.semantics steps (.rule name))) :
    (grammar.root setting more).Realizes regime
      (grammar.rootAttempt setting.source setting.semantics steps) := by
  rw [root, rootAttempt]
  cases grammar.rules with
  | nil => exact .fault .outOfRange
  | cons rule rest => exact hrule rule.name

theorem labels_addTables (setting : Setting Value) (labels : List TableLabel)
    (machine : Machine Value) :
    (labels.foldl (fun machine label => machine.addTable setting label.name label.diagnosis)
      machine).tables.map MemoTable.label =
        machine.tables.map MemoTable.label ++ labels := by
  induction labels generalizing machine with
  | nil => rw [List.append_nil]; rfl
  | cons label rest ih =>
      rw [List.foldl_cons, ih, Machine.addTable, List.map_append, List.append_assoc]
      rfl

theorem machine_hasTablesOf (grammar : Grammar) (setting : Setting Value) :
    (grammar.machine setting).HasTablesOf grammar :=
  labels_addTables setting grammar.tables .initial

/-- Without memory, a parse ends exactly if its root attempt does. -/
theorem parse_answers_unmemoized {grammar : Grammar} (setting : Setting Value)
    {machine : Machine Value} (hmachine : machine.HasTablesOf grammar)
    (hcapacity : setting.capacity.value = 0) (steps : Nat) :
    (grammar.parse setting steps machine).Answers setting True
      (grammar.rootAttempt setting.source setting.semantics steps 0) := by
  have hroot : (grammar.root setting steps).Realizes (.unmemoized grammar)
      (grammar.rootAttempt setting.source setting.semantics steps) :=
    root_realizes fun name => evaluate_realizes_unmemoized grammar setting steps (.rule name)
  exact Machine.parse_answers hroot machine (hmachine.unmemoized_start hcapacity)

/-- Sums of terms up to the end of the text; all phrases of a sum are memoized. -/
def sums : Grammar :=
  ⟨[⟨"sums", "", none, [.rule "sum", .terminal .endOfText]⟩,
    ⟨"sum", "", some 0,
      [.choice
        [.sequence (.memoized 1)
          [.rule "term", .terminal (.character '+'), .rule "sum"],
          .rule "term"]]⟩,
    ⟨"term", "a term", some 2, [.terminal (.character 'x')]⟩],
   [⟨"sum", ""⟩, ⟨"", "a longer sum"⟩, ⟨"term", "a term"⟩]⟩

end Grammar

end Packrat
