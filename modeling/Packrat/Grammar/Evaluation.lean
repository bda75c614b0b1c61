import Packrat.Engine.Parse
import Packrat.Grammar.Expression

/-!
# Evaluating a grammar

Each expression is a procedure over the machine that returns whether it matched.
The procedures are built from the primitives alone.  A grammar with left recursion
may go on for ever, so an evaluation is allowed a number of nested steps; more steps
never change the outcome of an evaluation that ends.
-/

namespace Packrat

namespace Grammar

variable {Value : Type}

/-- Performs a primitive; one without a result counts as true. -/
def test (setting : Setting Value) (primitive : Primitive) : Run Value Bool :=
  (Machine.perform setting primitive).map (·.getD true)

/-- Closes the open phrase in one way or another, as the body turns out. -/
def closedAfter (setting : Setting Value) (body : Run Value Bool)
    (onMatch onFailure : Closing) : Run Value Bool :=
  body.andThen fun matched =>
    test setting (.close (if matched then onMatch else onFailure))

/-- Opens an inner phrase around a body, or takes the result of a memo table. -/
def inside (setting : Setting Value) (opening : Opening) (use : PhraseUse)
    (body : Run Value Bool) (onMatch onFailure : Closing) : Run Value Bool :=
  match opening with
  | .plain diagnosis =>
      (test setting (.begin "" diagnosis)).andThen fun _ =>
        closedAfter setting body onMatch onFailure
  | .memoized table =>
      (test setting (.consult table true)).andThen fun found =>
        if found then test setting (.reuse use)
        else closedAfter setting body onMatch onFailure

/-- The procedure of a rule, given that of its body. -/
def ruleProcedure (setting : Setting Value) (rule : Rule) (body : Run Value Bool) :
    Run Value Bool :=
  match rule.table with
  | none =>
      (test setting (.begin rule.name rule.diagnosis)).andThen fun _ =>
        closedAfter setting body .accept .reject
  | some table =>
      (test setting (.consult table false)).andThen fun found =>
        if found then test setting (.reuse .rule)
        else closedAfter setting body .accept .reject

/-- Remarks in the journal how a rule went. -/
def remarked (name : String) (procedure : Run Value Bool) : Run Value Bool :=
  (Run.look Machine.position).andThen fun start =>
    procedure.andThen fun matched =>
      (Run.look Machine.position).andThen fun stop =>
        (Run.change (·.note (.rule name matched start stop))).andThen fun _ =>
          .done matched

/-- Goes on after a repetition has matched once more, unless it took nothing. -/
def ifAdvanced (start : Nat) (again : Run Value Bool) : Run Value Bool :=
  (Run.look Machine.position).andThen fun position =>
    if position = start then .done true else again

def evaluate (grammar : Grammar) (setting : Setting Value) :
    Nat → Expression → Run Value Bool
  | 0, _ => .exhausted
  | _ + 1, .terminal terminal => test setting (.next terminal)
  | _ + 1, .ahead terminal => test setting (.ahead terminal)
  | _ + 1, .aheadNot terminal => test setting (.aheadNot terminal)
  | steps + 1, .rule name =>
      match grammar.rule? name with
      | none => .fault .outOfRange
      | some rule =>
          remarked name
            (ruleProcedure setting rule
              (.all (rule.body.map (evaluate grammar setting steps))))
  | steps + 1, .choice alternatives =>
      .any (alternatives.map (evaluate grammar setting steps))
  | steps + 1, .optional body =>
      (evaluate grammar setting steps body).andThen fun _ => .done true
  | steps + 1, .star body =>
      (Run.look Machine.position).andThen fun start =>
        (evaluate grammar setting steps body).andThen fun matched =>
          if matched then ifAdvanced start (evaluate grammar setting steps (.star body))
          else .done true
  | steps + 1, .plus body =>
      (evaluate grammar setting steps body).andThen fun matched =>
        if matched then evaluate grammar setting steps (.star body) else .done false
  | steps + 1, .sequence opening parts =>
      inside setting opening .inner (.all (parts.map (evaluate grammar setting steps)))
        .acceptInner .rejectInner
  | steps + 1, .andPredicate opening argument =>
      inside setting opening .predicate (evaluate grammar setting steps argument)
        .acceptAnd .rejectAnd
  | steps + 1, .notPredicate opening argument =>
      inside setting opening .predicate (evaluate grammar setting steps argument)
        .rejectNot .acceptNot

/-- The first rule, which a grammar without rules does not have. -/
def root (grammar : Grammar) (setting : Setting Value) (steps : Nat) : Run Value Bool :=
  match grammar.rules with
  | [] => .fault .outOfRange
  | rule :: _ => evaluate grammar setting steps (.rule rule.name)

/-- A machine with the tables of the grammar. -/
def machine (grammar : Grammar) (setting : Setting Value) : Machine Value :=
  grammar.tables.foldl
    (fun machine table => machine.addTable setting table.name table.diagnosis) .initial

def parse (grammar : Grammar) (setting : Setting Value) (steps : Nat) :
    Run Value (Except ParseError (Phrase Value)) :=
  Machine.parse setting (grammar.root setting steps)

end Grammar

end Packrat
