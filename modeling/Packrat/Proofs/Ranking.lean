import Packrat.Proofs.AtomicFailure
import Packrat.Proofs.Consuming

/-!
# Ranked rules

A rule is left-recursive if it may be entered again before anything has been consumed.  When
the rules can be ranked so that whatever a rule may enter in this way has a smaller rank, then
every expression has a result at every position: along a chain of calls the input that remains
gets less, or the rank does, or the expression gets smaller.
-/

namespace Packrat

namespace Expression

mutual

/-- The expression refers to the rule at a place which no consuming expression precedes.  What
is inside a predicate, an option, a choice or a repetition counts as well. -/
def LeavesUnguarded (grammar : Grammar) (target : String) : Expression → Prop
  | .terminal _ | .ahead _ | .aheadNot _ => False
  | .rule name => name = target
  | .choice alternatives => SomeLeavesUnguarded grammar target alternatives
  | .optional body | .star body | .plus body => LeavesUnguarded grammar target body
  | .sequence _ parts => RowLeavesUnguarded grammar target parts
  | .andPredicate _ argument | .notPredicate _ argument => LeavesUnguarded grammar target argument

def SomeLeavesUnguarded (grammar : Grammar) (target : String) : List Expression → Prop
  | [] => False
  | first :: others =>
      LeavesUnguarded grammar target first ∨ SomeLeavesUnguarded grammar target others

/-- A consuming part guards the references in all the parts after it. -/
def RowLeavesUnguarded (grammar : Grammar) (target : String) : List Expression → Prop
  | [] => False
  | first :: others =>
      LeavesUnguarded grammar target first ∨
        ¬ grammar.Consuming first ∧ RowLeavesUnguarded grammar target others

end

end Expression

namespace Grammar

/-- What a rule may enter before it has consumed anything has a smaller rank. -/
def IsRankedBy (grammar : Grammar) (rank : String → Nat) : Prop :=
  ∀ name rule, grammar.rule? name = some rule →
    ∀ target, Expression.RowLeavesUnguarded grammar target rule.body → rank target < rank name

/-- The expression has a result at the position. -/
def Decides (grammar : Grammar) (source : Source) (expression : Expression) (position : Nat) :
    Prop :=
  ∃ result, grammar.Derives source expression position result

/-- Whatever the grammar covers has a result at all later positions of the source. -/
def DecidesAfter (grammar : Grammar) (source : Source) (position : Nat) : Prop :=
  ∀ later, position < later → later ≤ source.length →
    ∀ expression, expression.isCovered grammar = true → grammar.Decides source expression later

variable {grammar : Grammar} {source : Source} {position : Nat}

/-! ## Terminals -/

theorem takes_or_not (source : Source) (terminal : Terminal) (position : Nat) :
    (∃ length, terminal.Takes (source.rest position) length) ∨
      ∀ length, ¬ terminal.Takes (source.rest position) length := by
  rw [← not_exists]
  exact Classical.em _

theorem decides_terminal (terminal : Terminal) (position : Nat) :
    grammar.Decides source (.terminal terminal) position := by
  rcases takes_or_not source terminal position with ⟨length, htakes⟩ | hnone
  · exact ⟨_, .terminal htakes⟩
  · exact ⟨_, .terminalFails hnone⟩

theorem decides_ahead (terminal : Terminal) (position : Nat) :
    grammar.Decides source (.ahead terminal) position := by
  rcases takes_or_not source terminal position with ⟨length, htakes⟩ | hnone
  · exact ⟨_, .ahead htakes⟩
  · exact ⟨_, .aheadFails hnone⟩

theorem decides_aheadNot (terminal : Terminal) (position : Nat) :
    grammar.Decides source (.aheadNot terminal) position := by
  rcases takes_or_not source terminal position with ⟨length, htakes⟩ | hnone
  · exact ⟨_, .aheadNotFails htakes⟩
  · exact ⟨_, .aheadNot hnone⟩

/-! ## Repetitions and rows -/

namespace DecidesAfter

variable (hafter : grammar.DecidesAfter source position)

include hafter

/-- Parts in a row, once something has been consumed. -/
theorem row {items : List Expression} (hitems : Expression.areCovered grammar items = true)
    {later : Nat} (hlater : position < later) (hinside : later ≤ source.length) :
    ∃ result, grammar.DerivesAll source items later result := by
  induction items generalizing later with
  | nil => exact ⟨_, .nil later⟩
  | cons first others ih =>
      obtain ⟨hfirst, hothers⟩ := Bool.and_eq_true_iff.mp hitems
      obtain ⟨result, hresult⟩ := hafter later hlater hinside first hfirst
      cases result with
      | none => exact ⟨none, .fails others hresult⟩
      | some stop =>
          have hmoves := hresult.moves stop rfl
          obtain ⟨last, hlast⟩ : ∃ last, grammar.DerivesAll source others stop last :=
            ih hothers (by omega) (by omega)
          exact ⟨last, .cons hresult hlast⟩

/-- A repetition ends where its body fails or stays in place, and goes on with less input
otherwise. -/
theorem star {body : Expression} (hcovered : body.isCovered grammar = true)
    (hbody : grammar.Decides source body position) :
    grammar.Decides source (.star body) position := by
  obtain ⟨result, hresult⟩ := hbody
  cases result with
  | none => exact ⟨_, .starEnds hresult⟩
  | some stop =>
      rcases hresult.moves stop rfl with rfl | ⟨hlater, hinside⟩
      · exact ⟨_, .starStalls hresult⟩
      · obtain ⟨last, hlast⟩ := hafter stop hlater hinside (.star body) hcovered
        exact ⟨last, .starAdvances hresult (Nat.ne_of_gt hlater) hlast⟩

theorem plus {body : Expression} (hcovered : body.isCovered grammar = true)
    (hbody : grammar.Decides source body position) :
    grammar.Decides source (.plus body) position := by
  obtain ⟨result, hresult⟩ := hbody
  cases result with
  | none => exact ⟨_, .plusFails hresult⟩
  | some stop =>
      have hagain : grammar.Decides source (.star body) stop := by
        rcases hresult.moves stop rfl with rfl | ⟨hlater, hinside⟩
        · exact hafter.star hcovered ⟨_, hresult⟩
        · exact hafter stop hlater hinside (.star body) hcovered
      obtain ⟨last, hlast⟩ := hagain
      exact ⟨last, .plus hresult hlast⟩

end DecidesAfter

/-! ## Expressions -/

/-- The rules that an expression may enter at the position have results there. -/
def DecidesRules (grammar : Grammar) (source : Source) (position : Nat)
    (entered : String → Prop) : Prop :=
  ∀ name, entered name → (grammar.rule? name).isSome →
    grammar.Decides source (.rule name) position

mutual

/-- The recursion is on the expression: its parts are entered at the same position, as long as
nothing has been consumed. -/
theorem decides_of_rules (hafter : grammar.DecidesAfter source position) :
    ∀ expression : Expression, expression.isCovered grammar = true →
      grammar.DecidesRules source position (expression.LeavesUnguarded grammar) →
        grammar.Decides source expression position
  | .terminal terminal, _, _ => decides_terminal terminal position
  | .ahead terminal, _, _ => decides_ahead terminal position
  | .aheadNot terminal, _, _ => decides_aheadNot terminal position
  | .rule name, hcovered, hrules => hrules name rfl hcovered
  | .choice alternatives, hcovered, hrules => by
      obtain ⟨result, hany⟩ := decidesAny_of_rules hafter alternatives hcovered hrules
      exact ⟨result, .choice hany⟩
  | .optional body, hcovered, hrules => by
      obtain ⟨result, hbody⟩ := decides_of_rules hafter body hcovered hrules
      exact ⟨_, .optional hbody⟩
  | .star body, hcovered, hrules =>
      hafter.star hcovered (decides_of_rules hafter body hcovered hrules)
  | .plus body, hcovered, hrules =>
      hafter.plus hcovered (decides_of_rules hafter body hcovered hrules)
  | .sequence _ parts, hcovered, hrules => by
      obtain ⟨_, hparts⟩ := Bool.and_eq_true_iff.mp hcovered
      obtain ⟨result, hall⟩ := decidesAll_of_rules hafter parts hparts hrules
      exact ⟨result, .sequence hall⟩
  | .andPredicate _ argument, hcovered, hrules => by
      obtain ⟨_, hargument⟩ := Bool.and_eq_true_iff.mp hcovered
      obtain ⟨result, hresult⟩ := decides_of_rules hafter argument hargument hrules
      cases result with
      | none => exact ⟨_, .andPredicateFails hresult⟩
      | some stop => exact ⟨_, .andPredicate hresult⟩
  | .notPredicate _ argument, hcovered, hrules => by
      obtain ⟨_, hargument⟩ := Bool.and_eq_true_iff.mp hcovered
      obtain ⟨result, hresult⟩ := decides_of_rules hafter argument hargument hrules
      cases result with
      | none => exact ⟨_, .notPredicate hresult⟩
      | some stop => exact ⟨_, .notPredicateFails hresult⟩

theorem decidesAll_of_rules (hafter : grammar.DecidesAfter source position) :
    ∀ items : List Expression, Expression.areCovered grammar items = true →
      grammar.DecidesRules source position
        (fun target => Expression.RowLeavesUnguarded grammar target items) →
        ∃ result, grammar.DerivesAll source items position result
  | [], _, _ => ⟨_, .nil position⟩
  | first :: others, hcovered, hrules => by
      obtain ⟨hfirst, hothers⟩ := Bool.and_eq_true_iff.mp hcovered
      obtain ⟨result, hresult⟩ := decides_of_rules hafter first hfirst fun name hname =>
        hrules name (.inl hname)
      cases result with
      | none => exact ⟨none, .fails others hresult⟩
      | some stop =>
          rcases hresult.moves stop rfl with hstill | ⟨hlater, hinside⟩
          · -- What has matched in place is not consuming, so the others are unguarded too.
            have hidle : ¬ grammar.Consuming first := fun hconsuming =>
              Nat.ne_of_gt (hconsuming.lt hresult) hstill
            rw [hstill] at hresult
            obtain ⟨last, hlast⟩ := decidesAll_of_rules hafter others hothers fun name hname =>
              hrules name (.inr ⟨hidle, hname⟩)
            exact ⟨last, .cons hresult hlast⟩
          · obtain ⟨last, hlast⟩ := hafter.row hothers hlater hinside
            exact ⟨last, .cons hresult hlast⟩

theorem decidesAny_of_rules (hafter : grammar.DecidesAfter source position) :
    ∀ items : List Expression, Expression.areCovered grammar items = true →
      grammar.DecidesRules source position
        (fun target => Expression.SomeLeavesUnguarded grammar target items) →
        ∃ result, grammar.DerivesAny source items position result
  | [], _, _ => ⟨_, .nil position⟩
  | first :: others, hcovered, hrules => by
      obtain ⟨hfirst, hothers⟩ := Bool.and_eq_true_iff.mp hcovered
      obtain ⟨result, hresult⟩ := decides_of_rules hafter first hfirst fun name hname =>
        hrules name (.inl hname)
      cases result with
      | some stop => exact ⟨_, .first others hresult⟩
      | none =>
          obtain ⟨last, hlast⟩ := decidesAny_of_rules hafter others hothers fun name hname =>
            hrules name (.inr hname)
          exact ⟨last, .later hresult hlast⟩

end

/-! ## Rules -/

/-- At one position, the rules are decided in the order of their ranks. -/
theorem decides_rule_of_ranked (hgrammar : grammar.isComplete = true) {rank : String → Nat}
    (hrank : grammar.IsRankedBy rank) (hafter : grammar.DecidesAfter source position)
    {name : String} (hname : (grammar.rule? name).isSome) :
    grammar.Decides source (.rule name) position := by
  induction hlevel : rank name using Nat.strongRecOn generalizing name with
  | ind level ih =>
      obtain ⟨rule, hrule⟩ := Option.isSome_iff_exists.mp hname
      have hbody := Expression.areCovered_iff.mpr (covered_of_rule? hgrammar hrule).2
      obtain ⟨result, hall⟩ := decidesAll_of_rules hafter rule.body hbody
        fun target hunguarded htarget =>
          ih (rank target) (hlevel ▸ hrank name rule hrule target hunguarded) htarget rfl
      exact ⟨result, .rule hrule hall⟩

/-- Ranked rules leave nothing undecided. -/
theorem decides_of_ranked (hgrammar : grammar.isComplete = true) {rank : String → Nat}
    (hrank : grammar.IsRankedBy rank) (source : Source) (position : Nat)
    {expression : Expression} (hexpression : expression.isCovered grammar = true) :
    grammar.Decides source expression position := by
  induction hremaining : source.length - position using Nat.strongRecOn
    generalizing position expression with
  | ind remaining ih =>
      have hafter : grammar.DecidesAfter source position := by
        intro later hlater hinside other hother
        exact ih (source.length - later) (by omega) later hother rfl
      apply decides_of_rules hafter expression hexpression
      intro name _ hname
      exact decides_rule_of_ranked hgrammar hrank hafter hname

end Grammar

end Packrat
