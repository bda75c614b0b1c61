import Packrat.Proofs.CallLog
import Packrat.Proofs.ExplainedEffects

/-!
# The report of a failed parse

In a grammar in which every choice has an alternative, whatever a parse gives up is
explained by failures.  So the report of a parse that fails without memory names the
furthest position that the cursor ever reached outside the arguments of predicates, and
every label that failed there.
-/

namespace Packrat

variable {Value : Type}

namespace Expression

mutual

/-- No choice in the expression is without alternatives. -/
def hasNoEmptyChoice : Expression → Bool
  | .terminal _ | .ahead _ | .aheadNot _ | .rule _ => true
  | .choice alternatives => !alternatives.isEmpty && haveNoEmptyChoice alternatives
  | .optional body | .star body | .plus body => hasNoEmptyChoice body
  | .sequence _ parts => haveNoEmptyChoice parts
  | .andPredicate _ argument | .notPredicate _ argument => hasNoEmptyChoice argument

def haveNoEmptyChoice : List Expression → Bool
  | [] => true
  | expression :: rest => hasNoEmptyChoice expression && haveNoEmptyChoice rest

end

theorem hasNoEmptyChoice_of_mem {expression : Expression} {expressions : List Expression}
    (hall : haveNoEmptyChoice expressions = true) (hmember : expression ∈ expressions) :
    expression.hasNoEmptyChoice = true := by
  induction expressions with
  | nil => simp at hmember
  | cons first rest ih =>
      rw [haveNoEmptyChoice, Bool.and_eq_true] at hall
      rcases List.mem_cons.mp hmember with rfl | hrest
      · exact hall.1
      · exact ih hall.2 hrest

end Expression

namespace Grammar

def hasNoEmptyChoice (grammar : Grammar) : Bool :=
  grammar.rules.all fun rule => Expression.haveNoEmptyChoice rule.body

theorem hasNoEmptyChoice_of_part {grammar : Grammar} {expression part : Expression}
    (hgrammar : grammar.hasNoEmptyChoice = true)
    (hexpression : expression.hasNoEmptyChoice = true)
    (hpart : part ∈ grammar.parts expression) : part.hasNoEmptyChoice = true := by
  cases expression with
  | terminal | ahead | aheadNot => simp [parts] at hpart
  | rule name =>
      cases hrule : grammar.rule? name with
      | none => simp [parts, hrule] at hpart
      | some rule =>
          simp only [parts, hrule, Option.map_some, Option.getD_some] at hpart
          have hbody := List.all_eq_true.mp hgrammar rule (List.mem_of_find?_eq_some hrule)
          exact Expression.hasNoEmptyChoice_of_mem hbody hpart
  | choice alternatives =>
      rw [Expression.hasNoEmptyChoice, Bool.and_eq_true] at hexpression
      exact Expression.hasNoEmptyChoice_of_mem hexpression.2 hpart
  | optional body =>
      obtain rfl := List.mem_singleton.mp hpart
      exact hexpression
  | star body | plus body =>
      simp only [parts, List.mem_cons, List.not_mem_nil, or_false] at hpart
      rcases hpart with rfl | rfl <;> exact hexpression
  | sequence opening items => exact Expression.hasNoEmptyChoice_of_mem hexpression hpart
  | andPredicate opening argument | notPredicate opening argument =>
      obtain rfl := List.mem_singleton.mp hpart
      exact hexpression

end Grammar

/-! ## Attempts whose effects are explained -/

namespace Attempt

def IsExplained (attempt : Attempt Value) : Prop :=
  ∀ start effect, attempt start = .ok effect → effect.IsExplained start

variable {source : Source} {semantics : Semantics Value} {attempt : Attempt Value}

theorem IsExplained.done : (done true : Attempt Value).IsExplained := by
  intro start effect heffect
  rw [← Except.ok.inj heffect]
  exact .still start

theorem IsExplained.ahead (source : Source) (terminal : Terminal) :
    (ahead source terminal : Attempt Value).IsExplained := by
  intro start effect heffect
  rw [ahead_eq_ok] at heffect
  rw [← Except.ok.inj heffect]
  cases terminal.matchLength? source start with
  | none => exact .failing terminal.label start
  | some length => exact .passing start

theorem IsExplained.aheadNot (source : Source) (terminal : Terminal) :
    (aheadNot source terminal : Attempt Value).IsExplained := by
  intro start effect heffect
  rw [aheadNot_eq_ok] at heffect
  rw [← Except.ok.inj heffect]
  cases terminal.matchLength? source start with
  | none => exact .passing start
  | some length => exact .failing terminal.negate.label start

theorem IsExplained.next (source : Source) (terminal : Terminal) :
    (next source terminal : Attempt Value).IsExplained := by
  intro start effect heffect
  rw [next_eq_ok] at heffect
  rw [← Except.ok.inj heffect]
  cases terminal.matchLength? source start with
  | none => exact .failing terminal.label start
  | some length =>
      by_cases hend : terminal = .endOfText
      · simp only [if_pos hend]
        exact .passing start
      · simp only [if_neg hend]
        exact .taking (Nat.le_add_right start length)

theorem IsExplained.andThen {next : Bool → Attempt Value} (hfirst : attempt.IsExplained)
    (hnext : ∀ matched, (next matched).IsExplained) :
    (attempt.andThen next).IsExplained := by
  intro start effect heffect
  obtain ⟨first, second, hattempt, hsecond, rfl⟩ := andThen_eq_ok_iff.mp heffect
  exact (hfirst start first hattempt).followedBy (hnext first.matched _ second hsecond)

/-- An attempt that goes on where the first one matched, and otherwise fails with it. -/
theorem IsExplained.ifMatched {next : Attempt Value} (hfirst : attempt.IsExplained)
    (hnext : next.IsExplained) :
    (attempt.andThen fun matched => if matched then next else Attempt.done false).IsExplained := by
  intro start effect heffect
  obtain ⟨first, second, hattempt, hsecond, rfl⟩ := andThen_eq_ok_iff.mp heffect
  have hexplained := hfirst start first hattempt
  cases hmatched : first.matched with
  | true =>
      rw [hmatched, if_pos rfl] at hsecond
      exact hexplained.followedBy (hnext _ second hsecond)
  | false =>
      rw [hmatched, if_neg Bool.false_ne_true] at hsecond
      have hsame := first.followedBy_still
      rw [hmatched] at hsame
      rw [← Except.ok.inj hsecond, hsame]
      exact hexplained

theorem IsExplained.all {Item : Type} {attempt : Item → Attempt Value} {items : List Item}
    (hitem : ∀ item ∈ items, (attempt item).IsExplained) :
    (Attempt.all (items.map attempt)).IsExplained := by
  induction items with
  | nil => exact .done
  | cons item rest ih =>
      have hrest := ih fun other hother => hitem other (List.mem_cons_of_mem item hother)
      exact (hitem item List.mem_cons_self).ifMatched hrest

/-- The last alternative explains why a choice fails. -/
theorem IsExplained.any {Item : Type} {attempt : Item → Attempt Value} {items : List Item}
    (hitems : items ≠ []) (hitem : ∀ item ∈ items, (attempt item).IsExplained) :
    (Attempt.any (items.map attempt)).IsExplained := by
  induction items with
  | nil => exact absurd rfl hitems
  | cons item rest ih =>
      have hfirst := hitem item List.mem_cons_self
      cases rest with
      | nil => exact hfirst.ifMatched .done
      | cons second others =>
          have hrest := ih (List.cons_ne_nil second others) fun other hother =>
            hitem other (List.mem_cons_of_mem item hother)
          apply hfirst.andThen
          intro matched
          cases matched with
          | true => exact .done
          | false => exact hrest

theorem IsExplained.ifAdvanced (start : Nat) (hattempt : attempt.IsExplained) :
    (Attempt.ifAdvanced start attempt).IsExplained := by
  intro position effect heffect
  simp only [Attempt.ifAdvanced] at heffect
  by_cases hstill : position = start
  · rw [if_pos hstill] at heffect
    exact IsExplained.done position effect heffect
  · rw [if_neg hstill] at heffect
    exact hattempt position effect heffect

theorem IsExplained.round {again : Attempt Value} (hbody : attempt.IsExplained)
    (hagain : again.IsExplained) : (Attempt.round attempt again).IsExplained := by
  intro start effect heffect
  have hrest : ∀ matched : Bool,
      (if matched then Attempt.ifAdvanced start again else Attempt.done true).IsExplained := by
    intro matched
    cases matched with
    | true => exact hagain.ifAdvanced start
    | false => exact .done
  exact hbody.andThen hrest start effect heffect

theorem IsExplained.within (hbody : attempt.IsExplained) (enclosure : Enclosure)
    (label? : Option TableLabel) :
    (Attempt.within source semantics enclosure label? attempt).IsExplained := by
  intro start effect heffect
  obtain ⟨label, inside, part, _, hinside, hpart, rfl⟩ := within_eq_ok_iff.mp heffect
  exact (hbody start inside hinside).ofPart hpart

end Attempt

namespace Grammar

variable {grammar : Grammar} {source : Source} {semantics : Semantics Value}

theorem attempt_isExplained (hgrammar : grammar.hasNoEmptyChoice = true) (steps : Nat)
    {expression : Expression} (hexpression : expression.hasNoEmptyChoice = true) :
    (grammar.attempt source semantics steps expression).IsExplained := by
  induction steps generalizing expression with
  | zero =>
      intro start effect heffect
      contradiction
  | succ steps ih =>
      have hparts : ∀ part ∈ grammar.parts expression,
          (grammar.attempt source semantics steps part).IsExplained := by
        intro part hpart
        exact ih (hasNoEmptyChoice_of_part hgrammar hexpression hpart)
      cases expression with
      | terminal terminal => exact .next source terminal
      | ahead terminal => exact .ahead source terminal
      | aheadNot terminal => exact .aheadNot source terminal
      | rule name =>
          rw [attempt]
          cases hrule : grammar.rule? name with
          | none =>
              intro start effect heffect
              contradiction
          | some rule =>
              have hbody : ∀ part ∈ rule.body,
                  (grammar.attempt source semantics steps part).IsExplained := by
                simpa [parts, hrule] using hparts
              exact (Attempt.IsExplained.all hbody).within .rule (grammar.ruleLabel? rule)
      | choice alternatives =>
          rw [Expression.hasNoEmptyChoice, Bool.and_eq_true] at hexpression
          have hitems : alternatives ≠ [] := by
            intro hempty
            rw [hempty] at hexpression
            exact Bool.false_ne_true hexpression.1
          exact .any hitems hparts
      | optional body =>
          exact (hparts body List.mem_cons_self).andThen fun _ => .done
      | star body =>
          have hagain := hparts (.star body) (List.mem_cons_of_mem _ List.mem_cons_self)
          exact .round (hparts body List.mem_cons_self) hagain
      | plus body =>
          have hagain := hparts (.star body) (List.mem_cons_of_mem _ List.mem_cons_self)
          exact (hparts body List.mem_cons_self).ifMatched hagain
      | sequence opening items =>
          exact (Attempt.IsExplained.all hparts).within .sequence
            (grammar.innerLabel? opening)
      | andPredicate opening argument =>
          exact (hparts argument List.mem_cons_self).within .andPredicate
            (grammar.innerLabel? opening)
      | notPredicate opening argument =>
          exact (hparts argument List.mem_cons_self).within .notPredicate
            (grammar.innerLabel? opening)

theorem rootAttempt_isExplained (hgrammar : grammar.hasNoEmptyChoice = true) (steps : Nat) :
    (grammar.rootAttempt source semantics steps).IsExplained := by
  rw [rootAttempt]
  cases grammar.rules with
  | nil =>
      intro start effect heffect
      contradiction
  | cons rule rest => exact attempt_isExplained hgrammar steps rfl

end Grammar

/-! ## The report -/

/-- A parse is answered by an error only if the root fails. -/
theorem Machine.matched_of_answer? {setting : Setting Value} {matched : Bool}
    {top : Phrase Value} {position : Nat} {error : ParseError}
    (hanswer : answer? setting matched top position = some (.error error)) :
    matched = false := by
  cases matched with
  | true => simp [answer?] at hanswer
  | false => rfl

/-- The error shows what the top phrase has recorded. -/
theorem Machine.error_of_answer? {setting : Setting Value} {top : Phrase Value}
    {position offset : Nat} {labels : List String} {error : ParseError}
    (hanswer : answer? setting false top position = some (.error error))
    (hfailure : top.failure = ⟨some offset, labels⟩) :
    error.offset = offset ∧ error.expected = .ofLabels labels := by
  have hat : ParseError.at? setting.source offset labels = some error := by
    simpa [answer?, report?, Phrase.error?, ParseError.ofFailure?, hfailure] using hanswer
  obtain ⟨location, _, rfl⟩ := Option.map_eq_some_iff.mp hat
  exact ⟨rfl, rfl⟩

/-- The error that a parse ends with. -/
def Outcome.error? : Outcome Value (Except ParseError (Phrase Value)) → Option ParseError
  | .finished (.error error) _ => some error
  | _ => none

theorem Outcome.eq_of_error? {outcome : Outcome Value (Except ParseError (Phrase Value))}
    {error : ParseError} (herror : outcome.error? = some error) :
    ∃ after, outcome = .finished (.error error) after := by
  cases outcome with
  | finished answer after =>
      cases answer with
      | ok phrase => contradiction
      | error reported =>
          obtain rfl := Option.some.inj herror
          exact ⟨after, rfl⟩
  | faulted fault after => contradiction
  | exhausted => contradiction

/-- The error of a parse that fails without memory is the furthest failure.  Its offset
is the greatest position of a failure outside the arguments of predicates, which is also
the greatest position at which the cursor was there, and its labels are those of all the
failures at this position, in order of their first appearance.  The failures and the
positions are those of the calls that the root makes (`root_eq_run`). -/
theorem Grammar.error_is_furthest_failure (grammar : Grammar) (setting : Setting Value)
    (hgrammar : grammar.hasNoEmptyChoice = true) (hcapacity : setting.capacity.value = 0)
    {machine after : Machine Value} (hmachine : machine.HasTablesOf grammar) {steps : Nat}
    {error : ParseError}
    (hparse : grammar.parse setting steps machine = .finished (.error error) after) :
    let start := machine.start setting
    let visits := Call.visits ((grammar.rootProcedure steps).calls setting start)
    let failures := Visit.failures visits
    (failures.map Prod.fst).max? = some error.offset ∧
      (start.position :: visits.map Visit.position).max? = some error.offset ∧
      error.expected.labels =
        ((failures.filter (·.1 = error.offset)).map Prod.snd).eraseDups := by
  intro start visits failures
  have hanswers := grammar.parse_answers_unmemoized setting hmachine hcapacity steps
  rw [hparse] at hanswers
  obtain ⟨effect, heffect, _, hanswer⟩ := hanswers.of_finished trivial
  have hvisits : visits = effect.visits :=
    visits_rootProcedure grammar setting (hmachine.unmemoized_start hcapacity) heffect
  have hexplained := rootAttempt_isExplained hgrammar steps 0 effect heffect
  have hfailed := Machine.matched_of_answer? hanswer
  obtain ⟨hfurthest, hreach⟩ := hexplained.mergeAll_eq_furthest hfailed
  rw [← hvisits] at hfurthest hreach
  obtain ⟨offset, hoffset⟩ : ∃ offset, Failure.reachOf failures = offset + 1 :=
    Nat.exists_eq_succ_of_ne_zero (Nat.ne_of_gt hreach)
  have hrecord : (effect.applyTo (.opened "" "" 0)).failure =
      ⟨some offset, Failure.labelsAt failures offset⟩ :=
    hfurthest.trans (Failure.furthest_of_reachOf hoffset)
  rw [hfailed] at hanswer
  obtain ⟨rfl, hexpected⟩ := Machine.error_of_answer? hanswer hrecord
  obtain ⟨label, hlabel⟩ := Failure.exists_mem_of_reachOf hoffset
  obtain ⟨furthest, hfurthestVisit, hnamed⟩ := List.mem_filterMap.mp hlabel
  have hposition : furthest.position = error.offset := by
    obtain ⟨_, _, hpair⟩ := Option.map_eq_some_iff.mp hnamed
    exact congrArg Prod.fst hpair
  refine ⟨?_, ?_, ?_⟩
  · rw [List.max?_eq_some_iff]
    refine ⟨List.mem_map_of_mem hlabel, ?_⟩
    intro place hplace
    obtain ⟨failure, hmember, rfl⟩ := List.mem_map.mp hplace
    have hlt := Failure.lt_reachOf_of_mem hmember
    omega
  · rw [List.max?_eq_some_iff]
    refine ⟨?_, ?_⟩
    · rw [← hposition]
      exact List.mem_cons_of_mem _ (List.mem_map_of_mem hfurthestVisit)
    · intro place hplace
      have hhorizon : effect.horizon = error.offset + 1 := by
        rw [Effect.horizon_of_failure effect hfailed, ← hvisits]
        exact hoffset
      rcases List.mem_cons.mp hplace with rfl | hvisited
      · exact Nat.zero_le _
      · obtain ⟨visit, hmember, rfl⟩ := List.mem_map.mp hvisited
        have hlt := hexplained.visits_lt visit (hvisits ▸ hmember)
        omega
  · rw [hexpected]
    rfl

/-- After `x+` a term is missing, and that is all there is to report. -/
theorem Grammar.error_is_furthest_failure_sums :
    let setting : Setting Nat := ⟨.ofText "x+", .empty, .none⟩
    let machine := sums.machine setting
    let error : ParseError := ⟨2, "after 'x+'", ⟨["'x'"]⟩⟩
    let visits :=
      Call.visits ((sums.rootProcedure 20).calls setting (machine.start setting))
    sums.hasNoEmptyChoice = true ∧
      (∃ after, sums.parse setting 20 machine = .finished (.error error) after) ∧
      ((Visit.failures visits).map Prod.fst).max? = some 2 := by
  intro setting machine error visits
  have hgrammar : sums.hasNoEmptyChoice = true := by decide
  obtain ⟨after, hparse⟩ : ∃ after,
      sums.parse setting 20 machine = .finished (.error error) after := by
    apply Outcome.eq_of_error?
    decide +kernel
  have hreport := error_is_furthest_failure sums setting hgrammar rfl
    (machine_hasTablesOf sums setting) hparse
  exact ⟨hgrammar, ⟨after, hparse⟩, hreport.1⟩

end Packrat
