import Packrat.Proofs.Evaluation

/-!
# Procedures and their calls

A run is a function and does not show what it performs.  A procedure is the same with
its primitives laid open, so that the calls which it makes on a machine can be listed.
Running the procedure of an expression is evaluating the expression.  For an expression
that opens its phrase through a memo table it comes down to consulting that table.
-/

namespace Packrat

variable {Value : Type}

/-- What is performed, each time in view of the results so far. -/
inductive Procedure (Value : Type) where
  | done (matched : Bool)
  | fault (cause : Fault)
  | exhausted
  /-- Goes on in view of where the cursor is. -/
  | look (next : Nat → Procedure Value)
  | note (entry : JournalEntry Value) (rest : Procedure Value)
  | perform (primitive : Primitive) (next : Bool → Procedure Value)

/-- A primitive that has been performed, with the machine before and after it. -/
structure Call (Value : Type) where
  before : Machine Value
  primitive : Primitive
  result : Bool
  after : Machine Value

namespace Procedure

def call (primitive : Primitive) : Procedure Value :=
  .perform primitive .done

def andThen (next : Bool → Procedure Value) : Procedure Value → Procedure Value
  | .done matched => next matched
  | .fault cause => .fault cause
  | .exhausted => .exhausted
  | .look view => .look fun position => andThen next (view position)
  | .note entry rest => .note entry (andThen next rest)
  | .perform primitive rest => .perform primitive fun result => andThen next (rest result)

def all : List (Procedure Value) → Procedure Value
  | [] => .done true
  | procedure :: rest =>
      procedure.andThen fun matched => if matched then all rest else .done false

def any : List (Procedure Value) → Procedure Value
  | [] => .done false
  | procedure :: rest =>
      procedure.andThen fun matched => if matched then .done true else any rest

theorem andThen_done (procedure : Procedure Value) : procedure.andThen .done = procedure := by
  induction procedure with
  | done | fault | exhausted => rfl
  | look view ih => exact congrArg Procedure.look (funext ih)
  | note entry rest ih => exact congrArg (Procedure.note entry) ih
  | perform primitive rest ih => exact congrArg (Procedure.perform primitive) (funext ih)

theorem all_singleton (procedure : Procedure Value) : all [procedure] = procedure := by
  have hdone : (fun matched : Bool => if matched then all [] else .done false) =
      (Procedure.done : Bool → Procedure Value) := by
    funext matched
    cases matched <;> rfl
  rw [all, hdone, andThen_done]

variable (setting : Setting Value)

def run : Procedure Value → Run Value Bool
  | .done matched => .done matched
  | .fault cause => .fault cause
  | .exhausted => .exhausted
  | .look view => (Run.look Machine.position).andThen fun position => run (view position)
  | .note entry rest => (Run.change (·.note entry)).andThen fun _ => run rest
  | .perform primitive rest =>
      (Grammar.test setting primitive).andThen fun result => run (rest result)

/-- The calls that finish, in the order in which they are made. -/
def calls : Procedure Value → Machine Value → List (Call Value)
  | .done _, _ | .fault _, _ | .exhausted, _ => []
  | .look view, machine => calls (view machine.position) machine
  | .note entry rest, machine => calls rest (machine.note entry)
  | .perform primitive rest, machine =>
      match Grammar.test setting primitive machine with
      | .finished result after =>
          ⟨machine, primitive, result, after⟩ :: calls (rest result) after
      | _ => []

@[simp]
theorem run_call (primitive : Primitive) :
    (call primitive).run setting = Grammar.test setting primitive :=
  Run.andThen_done _

theorem run_andThen (procedure : Procedure Value) (next : Bool → Procedure Value) :
    (procedure.andThen next).run setting =
      (procedure.run setting).andThen fun matched => (next matched).run setting := by
  induction procedure with
  | done matched => rfl
  | fault fault => rfl
  | exhausted => rfl
  | look view ih =>
      simp only [andThen, run, Run.andThen_assoc]
      congr 1
      funext position
      exact ih position
  | note entry rest ih => simp only [andThen, run, Run.andThen_assoc, ih]
  | perform primitive rest ih =>
      simp only [andThen, run, Run.andThen_assoc]
      congr 1
      funext result
      exact ih result

theorem run_all {Item : Type} (procedure : Item → Procedure Value) (items : List Item) :
    (all (items.map procedure)).run setting =
      Run.all (items.map fun item => (procedure item).run setting) := by
  induction items with
  | nil => rfl
  | cons item rest ih =>
      simp only [List.map_cons, all, Run.all, run_andThen, ← ih]
      congr 1
      funext matched
      cases matched <;> rfl

theorem run_any {Item : Type} (procedure : Item → Procedure Value) (items : List Item) :
    (any (items.map procedure)).run setting =
      Run.any (items.map fun item => (procedure item).run setting) := by
  induction items with
  | nil => rfl
  | cons item rest ih =>
      simp only [List.map_cons, any, Run.any, run_andThen, ← ih]
      congr 1
      funext matched
      cases matched <;> rfl

/-- The calls of two procedures in a row. -/
theorem calls_andThen_of_finished {procedure : Procedure Value}
    {next : Bool → Procedure Value} {machine between : Machine Value} {matched : Bool}
    (hfinished : procedure.run setting machine = .finished matched between) :
    (procedure.andThen next).calls setting machine =
      procedure.calls setting machine ++ (next matched).calls setting between := by
  induction procedure generalizing machine with
  | done result =>
      obtain ⟨rfl, rfl⟩ := Outcome.finished.inj hfinished
      rfl
  | fault fault => contradiction
  | exhausted => contradiction
  | look view ih => exact ih machine.position hfinished
  | note entry rest ih => exact ih hfinished
  | perform primitive rest ih =>
      simp only [run, Run.andThen] at hfinished
      simp only [andThen, calls]
      cases htest : Grammar.test setting primitive machine with
      | finished result after =>
          simp only [htest] at hfinished ⊢
          rw [ih result hfinished, List.cons_append]
      | faulted fault after => simp [htest] at hfinished
      | exhausted => simp [htest] at hfinished

theorem calls_call {primitive : Primitive} {machine after : Machine Value} {result : Bool}
    (hfinished : Grammar.test setting primitive machine = .finished result after) :
    (call primitive).calls setting machine = [⟨machine, primitive, result, after⟩] := by
  simp only [call, calls, hfinished]

theorem calls_perform {primitive : Primitive} {machine after : Machine Value}
    {result : Bool} {rest : Bool → Procedure Value}
    (hfinished : Grammar.test setting primitive machine = .finished result after) :
    (perform primitive rest).calls setting machine =
      ⟨machine, primitive, result, after⟩ :: (rest result).calls setting after := by
  simp only [calls, hfinished]

/-! ## The procedures of a grammar -/

def closedAfter (enclosure : Enclosure) (body : Procedure Value) : Procedure Value :=
  body.andThen fun matched => .call (.close (enclosure.closing matched))

def beginning (enclosure : Enclosure) (label : TableLabel) (body : Procedure Value) :
    Procedure Value :=
  .perform (.begin label.name label.diagnosis) fun _ => closedAfter enclosure body

def consulting (enclosure : Enclosure) (index : Nat) (inner : Bool)
    (body : Procedure Value) : Procedure Value :=
  .perform (.consult index inner) fun found =>
    if found then .call (.reuse enclosure.use) else closedAfter enclosure body

def inside (opening : Opening) (enclosure : Enclosure) (body : Procedure Value) :
    Procedure Value :=
  match opening with
  | .plain diagnosis => beginning enclosure ⟨"", diagnosis⟩ body
  | .memoized table => consulting enclosure table true body

def ofRule (rule : Rule) (body : Procedure Value) : Procedure Value :=
  match rule.table with
  | none => beginning .rule ⟨rule.name, rule.diagnosis⟩ body
  | some table => consulting .rule table false body

def remarked (name : String) (procedure : Procedure Value) : Procedure Value :=
  .look fun start =>
    procedure.andThen fun matched =>
      .look fun stop => .note (.rule name matched start stop) (.done matched)

def ifAdvanced (start : Nat) (again : Procedure Value) : Procedure Value :=
  .look fun position => if position = start then .done true else again

def round (body again : Procedure Value) : Procedure Value :=
  .look fun start =>
    body.andThen fun matched => if matched then ifAdvanced start again else .done true

theorem run_closedAfter (enclosure : Enclosure) (body : Procedure Value) :
    (closedAfter enclosure body).run setting =
      Grammar.closedAfter setting (body.run setting) (enclosure.closing true)
        (enclosure.closing false) := by
  rw [closedAfter, run_andThen, Grammar.closedAfter]
  congr 1
  funext matched
  cases matched <;> exact run_call setting _

theorem run_beginning (enclosure : Enclosure) (label : TableLabel)
    (body : Procedure Value) :
    (beginning enclosure label body).run setting =
      Grammar.beginning setting enclosure label (body.run setting) := by
  simp only [beginning, run, run_closedAfter]
  rfl

theorem run_consulting (enclosure : Enclosure) (index : Nat) (inner : Bool)
    (body : Procedure Value) :
    (consulting enclosure index inner body).run setting =
      Grammar.consulting setting enclosure index inner (body.run setting) := by
  simp only [consulting, run, Grammar.consulting]
  congr 1
  funext found
  cases found with
  | true => exact run_call setting _
  | false => exact run_closedAfter setting enclosure body

theorem run_inside (opening : Opening) (enclosure : Enclosure) (body : Procedure Value) :
    (inside opening enclosure body).run setting =
      Grammar.inside setting opening enclosure.use (body.run setting)
        (enclosure.closing true) (enclosure.closing false) := by
  cases opening with
  | plain diagnosis => exact run_beginning setting enclosure ⟨"", diagnosis⟩ body
  | memoized table => exact run_consulting setting enclosure table true body

theorem run_ofRule (rule : Rule) (body : Procedure Value) :
    (ofRule rule body).run setting =
      Grammar.ruleProcedure setting rule (body.run setting) := by
  rw [ofRule, Grammar.ruleProcedure]
  cases rule.table with
  | none => exact run_beginning setting .rule ⟨rule.name, rule.diagnosis⟩ body
  | some table => exact run_consulting setting .rule table false body

theorem run_remarked (name : String) (procedure : Procedure Value) :
    (remarked name procedure).run setting =
      Grammar.remarked name (procedure.run setting) := by
  simp only [remarked, run, run_andThen]
  rfl

theorem run_ifAdvanced (start : Nat) (again : Procedure Value) :
    (ifAdvanced start again).run setting =
      Grammar.ifAdvanced start (again.run setting) := by
  simp only [ifAdvanced, run, Grammar.ifAdvanced]
  congr 1
  funext position
  by_cases hstill : position = start
  · rw [if_pos hstill, if_pos hstill]
    rfl
  · rw [if_neg hstill, if_neg hstill]

theorem run_round (body again : Procedure Value) :
    (round body again).run setting =
      (Run.look Machine.position).andThen fun start =>
        (body.run setting).andThen fun matched =>
          if matched then Grammar.ifAdvanced start (again.run setting)
          else Run.done true := by
  simp only [round, run, run_andThen]
  congr 1
  funext start
  congr 1
  funext matched
  cases matched with
  | false => rfl
  | true => exact run_ifAdvanced setting start again

end Procedure

/-- A rule remarks how it went, other expressions do not. -/
def Expression.remarking (expression : Expression) (procedure : Procedure Value) :
    Procedure Value :=
  match expression with
  | .rule title => .remarked title procedure
  | _ => procedure

namespace Grammar

/-- The procedure of an expression. -/
def procedure (grammar : Grammar) : Nat → Expression → Procedure Value
  | 0, _ => .exhausted
  | _ + 1, .terminal terminal => .call (.next terminal)
  | _ + 1, .ahead terminal => .call (.ahead terminal)
  | _ + 1, .aheadNot terminal => .call (.aheadNot terminal)
  | steps + 1, .rule name =>
      match grammar.rule? name with
      | none => .fault .outOfRange
      | some rule =>
          .remarked name (.ofRule rule (.all (rule.body.map (procedure grammar steps))))
  | steps + 1, .choice alternatives =>
      .any (alternatives.map (procedure grammar steps))
  | steps + 1, .optional body => (procedure grammar steps body).andThen fun _ => .done true
  | steps + 1, .star body =>
      .round (procedure grammar steps body) (procedure grammar steps (.star body))
  | steps + 1, .plus body =>
      (procedure grammar steps body).andThen fun matched =>
        if matched then procedure grammar steps (.star body) else .done false
  | steps + 1, .sequence opening parts =>
      .inside opening .sequence (.all (parts.map (procedure grammar steps)))
  | steps + 1, .andPredicate opening argument =>
      .inside opening .andPredicate (procedure grammar steps argument)
  | steps + 1, .notPredicate opening argument =>
      .inside opening .notPredicate (procedure grammar steps argument)

/-- An expression that opens its phrase through a memo table consults that table. -/
theorem procedure_succ_of_table {grammar : Grammar} {expression : Expression} {index : Nat}
    (htable : grammar.table? expression = some index) (steps : Nat) :
    (grammar.procedure (steps + 1) expression : Procedure Value) =
      expression.remarking
        (.consulting expression.enclosure index expression.isInner
          (.all ((grammar.parts expression).map (grammar.procedure steps)))) := by
  cases expression with
  | rule title =>
      cases hrule : grammar.rule? title with
      | none => simp [table?, hrule] at htable
      | some rule =>
          have hmemoized : rule.table = some index := by
            simpa [table?, hrule] using htable
          simp only [procedure, hrule, Procedure.ofRule, hmemoized, parts]
          rfl
  | sequence opening parts =>
      cases opening with
      | plain diagnosis => simp [table?, Opening.table?] at htable
      | memoized table =>
          obtain rfl : table = index := by simpa [table?, Opening.table?] using htable
          rfl
  | andPredicate opening argument | notPredicate opening argument =>
      cases opening with
      | plain diagnosis => simp [table?, Opening.table?] at htable
      | memoized table =>
          obtain rfl : table = index := by simpa [table?, Opening.table?] using htable
          simp only [procedure, parts, List.map_cons, List.map_nil, Procedure.all_singleton]
          rfl
  | _ => simp [table?] at htable

variable (grammar : Grammar) (setting : Setting Value)

/-- Evaluating an expression is running its procedure. -/
theorem evaluate_eq_run (steps : Nat) (expression : Expression) :
    grammar.evaluate setting steps expression =
      (grammar.procedure steps expression).run setting := by
  induction steps generalizing expression with
  | zero => rfl
  | succ steps ih =>
      have hsteps : grammar.evaluate setting steps =
          fun part => (grammar.procedure steps part).run setting := by
        funext part
        exact ih part
      cases expression with
      | terminal terminal => exact (Procedure.run_call setting _).symm
      | ahead terminal => exact (Procedure.run_call setting _).symm
      | aheadNot terminal => exact (Procedure.run_call setting _).symm
      | rule name =>
          rw [evaluate, procedure]
          cases grammar.rule? name with
          | none => rfl
          | some rule =>
              simp only [Procedure.run_remarked, Procedure.run_ofRule, Procedure.run_all,
                hsteps]
      | choice alternatives => rw [evaluate, procedure, Procedure.run_any, hsteps]
      | optional body =>
          rw [evaluate, procedure, Procedure.run_andThen, hsteps]
          rfl
      | star body => rw [evaluate, procedure, Procedure.run_round, hsteps]
      | plus body =>
          rw [evaluate, procedure, Procedure.run_andThen, hsteps]
          congr 1
          funext matched
          cases matched <;> rfl
      | sequence opening parts =>
          rw [evaluate, procedure, Procedure.run_inside, Procedure.run_all, hsteps]
          rfl
      | andPredicate opening argument =>
          rw [evaluate, procedure, Procedure.run_inside, hsteps]
          rfl
      | notPredicate opening argument =>
          rw [evaluate, procedure, Procedure.run_inside, hsteps]
          rfl

/-- What an expression does that opens its phrase through a memo table depends on what it
does with that table alone. -/
theorem evaluate_succ_realizes_of_consulting {regime : Regime Value} {attempt : Attempt Value}
    {expression : Expression} {index more : Nat}
    (htable : grammar.table? expression = some index)
    (hconsulting : (consulting setting expression.enclosure index expression.isInner
      (.all ((grammar.parts expression).map (grammar.evaluate setting more)))).Realizes
        regime attempt) :
    (grammar.evaluate setting (more + 1) expression).Realizes regime attempt := by
  have hparts : grammar.evaluate setting more =
      fun part => (grammar.procedure more part).run setting :=
    funext fun part => evaluate_eq_run grammar setting more part
  rw [hparts, ← Procedure.run_all, ← Procedure.run_consulting] at hconsulting
  rw [evaluate_eq_run, procedure_succ_of_table htable]
  cases expression with
  | rule title =>
      rw [Expression.remarking, Procedure.run_remarked]
      exact .remarked title hconsulting
  | _ => exact hconsulting

/-- The procedure of the root rule. -/
def rootProcedure (grammar : Grammar) (steps : Nat) : Procedure Value :=
  match grammar.rules with
  | [] => .fault .outOfRange
  | rule :: _ => grammar.procedure steps (.rule rule.name)

theorem root_eq_run (steps : Nat) :
    grammar.root setting steps = (grammar.rootProcedure steps).run setting := by
  rw [root, rootProcedure]
  cases grammar.rules with
  | nil => rfl
  | cons rule rest => exact evaluate_eq_run grammar setting steps (.rule rule.name)

end Grammar

end Packrat
