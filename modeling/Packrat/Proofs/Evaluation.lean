import Packrat.Proofs.Realization

/-!
# From the parts of an expression to the expression

The evaluation of an expression realizes its attempt if the evaluations of its parts
realize theirs.  An expression that opens its phrase through a memo table is an
exception: there it depends on what the table holds, so only its attempt is described
here.
-/

namespace Packrat

variable {Value : Type}

theorem Effect.followedBy_still (effect : Effect Value) :
    effect.followedBy (.still effect.matched effect.stop) = effect := by
  simp [followedBy, still]

@[simp]
theorem Attempt.all_singleton (attempt : Attempt Value) : Attempt.all [attempt] = attempt := by
  funext position
  simp only [Attempt.all, Attempt.andThen]
  cases hattempt : attempt position with
  | error halt => rfl
  | ok effect =>
      have hsame := effect.followedBy_still
      cases hmatched : effect.matched <;> simp only [hmatched] at hsame ⊢ <;>
        exact congrArg Except.ok hsame

def Opening.table? : Opening → Option Nat
  | .plain _ => none
  | .memoized table => some table

namespace Expression

/-- The kind of phrase that an expression opens, if it opens one. -/
def enclosure : Expression → Enclosure
  | .sequence .. => .sequence
  | .andPredicate .. => .andPredicate
  | .notPredicate .. => .notPredicate
  | _ => .rule

def isInner : Expression → Bool
  | .sequence .. | .andPredicate .. | .notPredicate .. => true
  | _ => false

end Expression

namespace Grammar

/-- The expressions that are evaluated in the course of evaluating another one. -/
def parts (grammar : Grammar) : Expression → List Expression
  | .terminal _ | .ahead _ | .aheadNot _ => []
  | .rule name => ((grammar.rule? name).map Rule.body).getD []
  | .choice alternatives => alternatives
  | .optional body => [body]
  | .star body | .plus body => [body, .star body]
  | .sequence _ parts => parts
  | .andPredicate _ argument | .notPredicate _ argument => [argument]

/-- The memo table through which an expression opens its phrase. -/
def table? (grammar : Grammar) : Expression → Option Nat
  | .rule name => (grammar.rule? name).bind Rule.table
  | .sequence opening _ | .andPredicate opening _ | .notPredicate opening _ =>
      opening.table?
  | _ => none

/-- The name and the diagnosis of the phrases that are opened through a table. -/
def tableLabel? (grammar : Grammar) (index : Nat) (inner : Bool) : Option TableLabel :=
  grammar.tables[index]?.map fun label =>
    ⟨if inner then "" else label.name, label.diagnosis⟩

/-- A rule bears the label of its table. -/
theorem tableLabel?_false (grammar : Grammar) (index : Nat) :
    grammar.tableLabel? index false = grammar.tables[index]? := by
  rw [tableLabel?]
  cases grammar.tables[index]? <;> rfl

/-- Opens a phrase plainly around a body. -/
def beginning (setting : Setting Value) (enclosure : Enclosure) (label : TableLabel)
    (body : Run Value Bool) : Run Value Bool :=
  (test setting (.begin label.name label.diagnosis)).andThen fun _ =>
    closedAfter setting body (enclosure.closing true) (enclosure.closing false)

/-- Opens a phrase around a body unless a memo table has a result. -/
def consulting (setting : Setting Value) (enclosure : Enclosure) (index : Nat)
    (inner : Bool) (body : Run Value Bool) : Run Value Bool :=
  (test setting (.consult index inner)).andThen fun found =>
    if found then test setting (.reuse enclosure.use)
    else closedAfter setting body (enclosure.closing true) (enclosure.closing false)

end Grammar

section Enclosed

variable {regime : Regime Value} {setting : Setting Value} {enclosure : Enclosure}
variable {label : TableLabel} {ticket : Option Ticket} {attempt : Attempt Value}
variable {before opened : Machine Value} {outcome : Outcome Value Bool}

/-- A closed phrase realizes the enclosed attempt, provided that storing it leaves the
tables in order. -/
theorem Outcome.Closes.realizes
    (hcloses : outcome.Closes regime enclosure label ticket before opened
      (Attempt.closed setting.source setting.semantics enclosure label attempt
        before.position))
    (hkept : ∀ inside part tables,
      Attempt.closed setting.source setting.semantics enclosure label attempt
        before.position = .ok (inside, part) →
      regime.Kept opened.tables tables →
      regime.Kept before.tables (Machine.filled ticket part tables)) :
    outcome.Realizes regime before
      (Attempt.within setting.source setting.semantics enclosure (some label) attempt
        before.position) := by
  simp only [Attempt.within]
  cases hclosed : Attempt.closed setting.source setting.semantics enclosure label attempt
      before.position with
  | error halt =>
      rw [hclosed] at hcloses
      cases halt with
      | exhausted => exact hcloses
      | faulted fault position => exact hcloses
  | ok pair =>
      obtain ⟨inside, part⟩ := pair
      rw [hclosed] at hcloses
      obtain ⟨after, tables, hfinished, hafter, hopened, htables⟩ := hcloses
      refine ⟨after, by rw [hfinished, Effect.matched_ofPart], hafter, ?_⟩
      rw [htables]
      exact hkept inside part tables hclosed hopened

namespace Grammar

theorem beginning_realizes {body : Run Value Bool}
    (hbody : body.Realizes regime attempt) :
    (beginning setting enclosure label body).Realizes regime
      (.within setting.source setting.semantics enclosure (some label) attempt) := by
  intro machine hready
  let opened := machine.begin label.name label.diagnosis none
  have hcloses : (closedAfter setting body (enclosure.closing true)
      (enclosure.closing false) opened).Closes regime enclosure label none machine opened
        (Attempt.closed setting.source setting.semantics enclosure label attempt
          machine.position) :=
    closedAfter_closes hbody enclosure label rfl rfl rfl hready
  exact hcloses.realizes fun _ _ _ _ hkept => hkept

end Grammar

end Enclosed

namespace Grammar

variable {regime : Regime Value} (grammar : Grammar) (setting : Setting Value)

/-- An expression that opens its phrase plainly, or opens none. -/
theorem evaluate_succ_realizes {steps more : Nat} {expression : Expression}
    (htable : grammar.table? expression = none)
    (hparts : ∀ part ∈ grammar.parts expression,
      (grammar.evaluate setting more part).Realizes regime
        (grammar.attempt setting.source setting.semantics steps part)) :
    (grammar.evaluate setting (more + 1) expression).Realizes regime
      (grammar.attempt setting.source setting.semantics (steps + 1) expression) := by
  cases expression with
  | terminal terminal =>
      rw [evaluate, attempt, test_next]
      exact .of_core_eq (Machine.next_eq setting terminal)
  | ahead terminal =>
      rw [evaluate, attempt, test_ahead]
      exact .of_core_eq (Machine.ahead_eq setting terminal)
  | aheadNot terminal =>
      rw [evaluate, attempt, test_aheadNot]
      exact .of_core_eq (Machine.aheadNot_eq setting terminal)
  | rule name =>
      rw [evaluate, attempt]
      cases hrule : grammar.rule? name with
      | none => exact .fault .outOfRange
      | some rule =>
          have hplain : rule.table = none := by
            simpa [table?, hrule] using htable
          have hpart : ∀ part ∈ rule.body,
              (grammar.evaluate setting more part).Realizes regime
                (grammar.attempt setting.source setting.semantics steps part) := by
            simpa [parts, hrule] using hparts
          have hlabel : grammar.ruleLabel? rule = some ⟨rule.name, rule.diagnosis⟩ := by
            rw [ruleLabel?, hplain]
          have hprocedure : ruleProcedure setting rule
              (.all (rule.body.map (grammar.evaluate setting more))) =
                beginning setting .rule ⟨rule.name, rule.diagnosis⟩
                  (.all (rule.body.map (grammar.evaluate setting more))) := by
            rw [ruleProcedure, hplain]
            rfl
          simp only [hlabel, hprocedure]
          exact .remarked name (beginning_realizes (.all rule.body hpart))
  | choice alternatives => exact .any alternatives hparts
  | optional body =>
      have hbody := hparts body List.mem_cons_self
      exact hbody.andThen fun _ => .done true
  | star body =>
      have hbody := hparts body List.mem_cons_self
      have hagain := hparts (.star body) (List.mem_cons_of_mem _ List.mem_cons_self)
      exact .round hbody hagain
  | plus body =>
      have hbody := hparts body List.mem_cons_self
      have hagain := hparts (.star body) (List.mem_cons_of_mem _ List.mem_cons_self)
      exact hbody.andThen fun _ => .ite hagain (.done false)
  | sequence opening parts =>
      cases opening with
      | memoized table => simp [table?, Opening.table?] at htable
      | plain diagnosis => exact beginning_realizes (.all parts hparts)
  | andPredicate opening argument =>
      cases opening with
      | memoized table => simp [table?, Opening.table?] at htable
      | plain diagnosis => exact beginning_realizes (hparts argument List.mem_cons_self)
  | notPredicate opening argument =>
      cases opening with
      | memoized table => simp [table?, Opening.table?] at htable
      | plain diagnosis => exact beginning_realizes (hparts argument List.mem_cons_self)

/-- What an expression does that opens its phrase through a memo table. -/
theorem attempt_succ_of_table {source : Source} {semantics : Semantics Value}
    {expression : Expression} {index : Nat}
    (htable : grammar.table? expression = some index) (steps : Nat) :
    grammar.attempt source semantics (steps + 1) expression =
      .within source semantics expression.enclosure
        (grammar.tableLabel? index expression.isInner)
        (.all ((grammar.parts expression).map
          (grammar.attempt source semantics steps))) := by
  cases expression with
  | rule name =>
      cases hrule : grammar.rule? name with
      | none => simp [table?, hrule] at htable
      | some rule =>
          have hmemoized : rule.table = some index := by
            simpa [table?, hrule] using htable
          have hlabel : grammar.ruleLabel? rule = grammar.tableLabel? index false := by
            rw [ruleLabel?, hmemoized, tableLabel?_false]
          simp only [attempt, hrule, hlabel, parts]
          rfl
  | sequence opening parts =>
      cases opening with
      | plain diagnosis => simp [table?, Opening.table?] at htable
      | memoized table =>
          obtain rfl : table = index := by simpa [table?, Opening.table?] using htable
          rfl
  | andPredicate opening argument | notPredicate opening argument =>
      cases opening with
      | plain diagnosis => simp [table?, Opening.table?] at htable
      | memoized table =>
          obtain rfl : table = index := by simpa [table?, Opening.table?] using htable
          simp only [attempt, parts, List.map_cons, List.map_nil, Attempt.all_singleton]
          rfl
  | _ => simp [table?] at htable

end Grammar

end Packrat
