import Packrat.Proofs.AlternativeOrder
import Packrat.Proofs.AtomicFailure
import Packrat.Proofs.ErrorReport
import Packrat.Proofs.ExpectedSets

/-!
# Roots that choose

A parse may begin with any rule in front of those of a grammar.  If this rule is a choice and
all of its alternatives fail, then the parse reports the same in whatever order they are tried.
-/

namespace Packrat

variable {Value : Type} {setting : Setting Value}

/-! ## Reports -/

/-- The reports are for the same place and name the same labels, up to order. -/
structure ParseError.SameUpToOrder (error other : ParseError) : Prop where
  offset_eq : other.offset = error.offset
  location_eq : other.location = error.location
  expected_perm : other.expected.expected.Perm error.expected.expected
  notExpected_perm : other.expected.notExpected.Perm error.expected.notExpected

theorem ParseError.exists_at? {source : Source} {offset : Nat} {labels permuted : List String}
    {error : ParseError} (herror : at? source offset labels = some error)
    (hperm : labels.Perm permuted) :
    ∃ other, at? source offset permuted = some other ∧ error.SameUpToOrder other := by
  obtain ⟨location, hlocation, rfl⟩ := Option.map_eq_some_iff.mp herror
  have hlabels := (ExpectedSet.ofLabels_perm hperm).symm
  refine ⟨⟨offset, location, .ofLabels permuted⟩, ?_, rfl, rfl, ?_, ?_⟩
  · rw [at?, hlocation]
    rfl
  · exact hlabels.filter _
  · exact hlabels.filterMap _

/-- Alike records make for the same report. -/
theorem Machine.exists_alike_report {top : Phrase Value} {position : Nat} {error : ParseError}
    (herror : report? setting top position = some error) (other : Phrase Value)
    (halike : top.failure.Alike other.failure) :
    ∃ again, report? setting other position = some again ∧ error.SameUpToOrder again := by
  cases hposition : top.failure.position with
  | none =>
      have hother : other.failure.position = none := halike.position_eq ▸ hposition
      simp only [report?, hposition] at herror
      simp only [report?, hother]
      exact ParseError.exists_at? herror (.refl _)
  | some offset =>
      have hother : other.failure.position = some offset := halike.position_eq ▸ hposition
      simp only [report?, hposition, Phrase.error?, ParseError.ofFailure?, Option.bind_some]
        at herror
      simp only [report?, hother, Phrase.error?, ParseError.ofFailure?, Option.bind_some]
      exact ParseError.exists_at? herror halike.labels_perm

/-! ## A rule around a failing body -/

/-- A rejected phrase reports alike what has failed alike inside it. -/
theorem Closing.failureOf_reject_alike (phrase : Phrase Value) {failure other : Failure}
    (halike : failure.Alike other) :
    (Closing.reject.failureOf { phrase with failure := failure }).Alike
      (Closing.reject.failureOf { phrase with failure := other }) := by
  simp only [failureOf, halike.reach_eq]
  split
  · exact .refl _
  · exact halike

namespace Attempt

variable {source : Source} {semantics : Semantics Value} {body other : Attempt Value}
variable {position : Nat} {inside otherInside effect : Effect Value}

/-- A rule whose body fails hands over what it then reports. -/
theorem within_rule_eq_ok_of_failsAt (semantics : Semantics Value) (label : TableLabel)
    (hinside : body position = .ok inside) (hfails : inside.FailsAt position) :
    ∃ visits, within source semantics .rule (some label) body position =
      .ok ⟨false, position, none, [],
        [(Closing.reject.failureOf
          { (.opened label.name label.diagnosis position : Phrase Value) with
            failure := Failure.empty.mergeAll inside.records }, position)], visits⟩ := by
  let opened : Phrase Value := .opened label.name label.diagnosis position
  let part := Closing.reject.settle inside.stop (inside.applyTo opened)
  have hpart : Enclosure.rule.part? source semantics label position inside = .ok part := by
    rw [Enclosure.part?, hfails.matched_eq]
    rfl
  have hfailure : part.failure = Closing.reject.failureOf
      { opened with failure := Failure.empty.mergeAll inside.records } :=
    congrArg Closing.reject.failureOf (hfails.applyTo_eq opened)
  refine ⟨Enclosure.rule.visits label position inside part, ?_⟩
  rw [within_eq_ok_iff]
  refine ⟨label, inside, part, rfl, hinside, hpart, ?_⟩
  rw [← hfailure]
  rfl

/-- If the body of a rule fails alike, so does the rule. -/
theorem within_rule_failAlike {label? : Option TableLabel}
    (hinside : body position = .ok inside) (hother : other position = .ok otherInside)
    (halike : inside.FailAlike position otherInside)
    (heffect : within source semantics .rule label? body position = .ok effect) :
    ∃ otherEffect, within source semantics .rule label? other position = .ok otherEffect ∧
      effect.FailAlike position otherEffect := by
  obtain ⟨label, _, _, rfl, _⟩ := within_eq_ok_iff.mp heffect
  obtain ⟨visits, hfirst⟩ := within_rule_eq_ok_of_failsAt semantics label hinside halike.failsAt
  obtain ⟨otherVisits, hsecond⟩ :=
    within_rule_eq_ok_of_failsAt semantics label hother halike.other_failsAt
  refine ⟨_, hsecond, ?_⟩
  obtain rfl := Except.ok.inj (heffect.symm.trans hfirst)
  have hreported := Closing.failureOf_reject_alike
    (.opened label.name label.diagnosis position : Phrase Value) (halike.alike .empty)
  exact ⟨Effect.failsAt_single _ _ _, Effect.failsAt_single _ _ _,
    fun failure => (Failure.Alike.refl failure).merge hreported position⟩

end Attempt

/-- A parse that ends in an error does so alike when its root fails alike. -/
theorem Machine.exists_answer? {effect other : Effect Value} {error : ParseError}
    (halike : effect.FailAlike 0 other)
    (herror : answer? setting effect.matched (effect.applyTo (.opened "" "" 0)) effect.stop =
      some (.error error)) :
    ∃ again, answer? setting other.matched (other.applyTo (.opened "" "" 0)) other.stop =
        some (.error again) ∧ error.SameUpToOrder again := by
  rw [halike.failsAt.matched_eq, halike.failsAt.applyTo_eq, halike.failsAt.stop_eq] at herror
  rw [halike.other_failsAt.matched_eq, halike.other_failsAt.applyTo_eq,
    halike.other_failsAt.stop_eq]
  obtain ⟨reported, hreport, hsame⟩ := Option.map_eq_some_iff.mp herror
  obtain rfl := Except.error.inj hsame
  obtain ⟨again, hagain, hlike⟩ := exists_alike_report hreport
    { (.opened "" "" 0 : Phrase Value) with failure := Failure.empty.mergeAll other.records }
    (halike.alike .empty)
  exact ⟨again, congrArg (Option.map Except.error) hagain, hlike⟩

/-! ## A root in front of a grammar -/

namespace Grammar

/-- The grammar with another root in front. -/
def withRoot (grammar : Grammar) (root : Rule) : Grammar :=
  ⟨root :: grammar.rules, grammar.tables⟩

/-- Parses a rule that need not belong to the grammar, but whose body is evaluated in it. -/
def parseFrom (grammar : Grammar) (setting : Setting Value) (steps : Nat) (root : Rule) :
    Run Value (Except ParseError (Phrase Value)) :=
  Machine.parse setting
    (remarked root.name
      (ruleProcedure setting root
        (.all (root.body.map (grammar.evaluate setting steps)))))

/-- All rules that the rules refer to exist, and so do all tables. -/
def CoversRules (grammar : Grammar) : Prop :=
  ∀ rule ∈ grammar.rules, Expression.areCovered grammar rule.body = true

instance (grammar : Grammar) : Decidable grammar.CoversRules :=
  inferInstanceAs
    (Decidable (∀ rule ∈ grammar.rules, Expression.areCovered grammar rule.body = true))

variable {grammar : Grammar} {root : Rule}

theorem rule?_withRoot {name : String} {rule : Rule} (hroot : grammar.rule? root.name = none)
    (hrule : grammar.rule? name = some rule) : (grammar.withRoot root).rule? name = some rule := by
  have hname : root.name ≠ name := by
    rintro rfl
    rw [hroot] at hrule
    contradiction
  rw [rule?, withRoot, List.find?_cons_of_neg (by simpa using hname)]
  exact hrule

/-- What the grammar covers does not see a new root. -/
theorem evaluate_withRoot (hgrammar : grammar.CoversRules)
    (hroot : grammar.rule? root.name = none) (steps : Nat) {expression : Expression}
    (hexpression : expression.isCovered grammar = true) :
    (grammar.withRoot root).evaluate setting steps expression =
      grammar.evaluate setting steps expression := by
  induction steps generalizing expression with
  | zero => rfl
  | succ steps ih =>
      have hmap : ∀ expressions, Expression.areCovered grammar expressions = true →
          expressions.map ((grammar.withRoot root).evaluate setting steps) =
            expressions.map (grammar.evaluate setting steps) := by
        intro expressions hcovered
        exact List.map_congr_left fun part hpart =>
          ih (Expression.areCovered_iff.mp hcovered part hpart)
      cases expression with
      | terminal | ahead | aheadNot => rfl
      | rule name =>
          obtain ⟨rule, hrule⟩ := Option.isSome_iff_exists.mp hexpression
          have hbody := hgrammar rule (List.mem_of_find?_eq_some hrule)
          simp only [evaluate, rule?_withRoot hroot hrule, hrule, hmap rule.body hbody]
      | choice alternatives => simp only [evaluate, hmap alternatives hexpression]
      | optional body =>
          have hcovered : body.isCovered grammar = true := hexpression
          simp only [evaluate, ih hcovered]
      | star body | plus body =>
          have hcovered : body.isCovered grammar = true := hexpression
          have hagain : (Expression.star body).isCovered grammar = true := hexpression
          simp only [evaluate, ih hcovered, ih hagain]
      | sequence opening parts =>
          obtain ⟨_, hparts⟩ := Bool.and_eq_true_iff.mp hexpression
          simp only [evaluate, hmap parts hparts]
      | andPredicate opening argument | notPredicate opening argument =>
          obtain ⟨_, hargument⟩ := Bool.and_eq_true_iff.mp hexpression
          simp only [evaluate, ih hargument]

/-- A grammar parses from its first rule. -/
theorem parse_succ_eq_parseFrom (setting : Setting Value) {rest : List Rule}
    (hrules : grammar.rules = root :: rest) (steps : Nat) :
    grammar.parse setting (steps + 1) = grammar.parseFrom setting steps root := by
  have hrule : grammar.rule? root.name = some root := by
    rw [rule?, hrules]
    exact List.find?_cons_of_pos (by simp)
  have hprocedure : grammar.root setting (steps + 1) =
      grammar.evaluate setting (steps + 1) (.rule root.name) := by
    rw [Grammar.root, hrules]
  simp only [parse, hprocedure, evaluate, hrule]
  rfl

/-- Where the rules do without the new root, its body is evaluated as in the old grammar. -/
theorem parse_withRoot (setting : Setting Value) (root : Rule) (hgrammar : grammar.CoversRules)
    (hroot : grammar.rule? root.name = none)
    (hbody : Expression.areCovered grammar root.body = true) (steps : Nat) :
    (grammar.withRoot root).parse setting (steps + 1) = grammar.parseFrom setting steps root := by
  have hmap : root.body.map ((grammar.withRoot root).evaluate setting steps) =
      root.body.map (grammar.evaluate setting steps) :=
    List.map_congr_left fun part hpart =>
      evaluate_withRoot hgrammar hroot steps (Expression.areCovered_iff.mp hbody part hpart)
  rw [parse_succ_eq_parseFrom setting rfl, parseFrom, parseFrom, hmap]

theorem ruleProcedure_realizes_unmemoized {body : Run Value Bool} {attempt : Attempt Value}
    (hbody : body.Realizes (.unmemoized grammar) attempt) (rule : Rule) :
    (ruleProcedure setting rule body).Realizes (.unmemoized grammar)
      (.within setting.source setting.semantics .rule (grammar.ruleLabel? rule) attempt) := by
  cases htable : rule.table with
  | none =>
      have hlabel : grammar.ruleLabel? rule = some ⟨rule.name, rule.diagnosis⟩ := by
        rw [ruleLabel?, htable]
      have hprocedure : ruleProcedure setting rule body =
          beginning setting .rule ⟨rule.name, rule.diagnosis⟩ body := by
        rw [ruleProcedure, htable]
        rfl
      rw [hlabel, hprocedure]
      exact beginning_realizes hbody
  | some table =>
      have hlabel : grammar.ruleLabel? rule = grammar.tableLabel? table false := by
        rw [ruleLabel?, htable, tableLabel?_false]
      have hprocedure : ruleProcedure setting rule body =
          consulting setting .rule table false body := by
        rw [ruleProcedure, htable]
        rfl
      rw [hlabel, hprocedure]
      exact consulting_realizes_unmemoized hbody .rule table false

theorem parseFrom_answers {machine : Machine Value} (hmachine : machine.HasTablesOf grammar)
    (hcapacity : setting.capacity.value = 0) (steps : Nat) (root : Rule) :
    (grammar.parseFrom setting steps root machine).Answers setting True
      (Attempt.within setting.source setting.semantics .rule (grammar.ruleLabel? root)
        (.all (root.body.map (grammar.attempt setting.source setting.semantics steps))) 0) := by
  have hbody : (Run.all (root.body.map (grammar.evaluate setting steps))).Realizes
      (.unmemoized grammar)
      (.all (root.body.map (grammar.attempt setting.source setting.semantics steps))) :=
    .all root.body fun part _ => evaluate_realizes_unmemoized grammar setting steps part
  apply Machine.parse_answers ((ruleProcedure_realizes_unmemoized hbody root).remarked root.name)
  exact hmachine.unmemoized_start hcapacity

end Grammar

/-! ## The order of the alternatives -/

/-- Where the first run ends in an error, the second ends in one for the same place with the
same labels. -/
def Run.ReportsLike (run other : Run Value (Except ParseError (Phrase Value)))
    (machine : Machine Value) : Prop :=
  ∀ error after, run machine = .finished (.error error) after →
    ∃ again left, other machine = .finished (.error again) left ∧ error.SameUpToOrder again

namespace Grammar

variable {grammar : Grammar} {expressions others : List Expression}

theorem areCovered_choice :
    Expression.areCovered grammar [.choice expressions] =
      Expression.areCovered grammar expressions := by
  simp [Expression.areCovered, Expression.isCovered]

theorem parseFrom_reportsLike (hcapacity : setting.capacity.value = 0)
    (hperm : expressions.Perm others) {root : Rule} (hroot : root.body = [.choice expressions])
    {machine : Machine Value} (hmachine : machine.HasTablesOf grammar) (steps : Nat) :
    (grammar.parseFrom setting steps root).ReportsLike
      (grammar.parseFrom setting steps { root with body := [.choice others] }) machine := by
  intro error after hparse
  have hanswers := parseFrom_answers hmachine hcapacity steps root
  rw [hparse, hroot] at hanswers
  obtain ⟨effect, heffect, _, hanswer⟩ := hanswers.of_finished trivial
  have hfailed := Machine.matched_of_answer? hanswer
  obtain ⟨label, inside, part, _, hinside, hpart, hwhole⟩ := Attempt.within_eq_ok_iff.mp heffect
  have hinsideFailed : inside.matched = false := by
    rw [hwhole, Effect.matched_ofPart, Enclosure.success_of_part? hpart] at hfailed
    cases hmatched : inside.matched with
    | false => rfl
    | true =>
        rw [hmatched] at hfailed
        contradiction
  obtain ⟨otherInside, hotherInside, halike⟩ :=
    exists_attempt_choice_failAlike grammar setting.source setting.semantics hperm
      (by simpa using hinside) hinsideFailed
  obtain ⟨other, hother, heffects⟩ := Attempt.within_rule_failAlike hinside
    (by simpa using hotherInside) halike heffect
  obtain ⟨again, hagain, hsame⟩ := Machine.exists_answer? heffects hanswer
  have hotherAnswers :=
    parseFrom_answers hmachine hcapacity steps { root with body := [.choice others] }
  have hreordered : Attempt.within setting.source setting.semantics .rule
      (grammar.ruleLabel? { root with body := [.choice others] })
      (.all ([.choice others].map (grammar.attempt setting.source setting.semantics steps))) 0 =
        .ok other := by
    rw [List.map_singleton, Attempt.all_singleton]
    exact hother
  rw [hreordered] at hotherAnswers
  obtain ⟨left, hleft, _⟩ := hotherAnswers
  rw [hagain] at hleft
  exact ⟨again, left, hleft, hsame⟩

/-- The order in which failing alternatives are tried does not change what is reported.

Without memory, expressions that all fail at a position, one after another, do so in any order.
The cursor ends where it was, and of all the phrases only the record of the innermost one may
differ, whatever it held before: its position is the same in either order, and its labels are
the same up to their order.  So a parse from a root that is the choice of the expressions
reports the same offset, the same location and the same labels in either order.  The
expressions mean what they mean in the grammar, whose own root may be the one whose alternatives
are reordered (`parse_succ_eq_parseFrom`).  If the root is put in front of the grammar, under a
name that its rules and the expressions do not refer to, then the same holds of the two grammars;
otherwise the reference would be to another rule in each of them. -/
theorem order_of_failing_alternatives (grammar : Grammar) (setting : Setting Value)
    (hcapacity : setting.capacity.value = 0) (hperm : expressions.Perm others) :
    (∀ before after : Machine Value, before.HasTablesOf grammar →
      (∀ table ∈ before.tables, table.slots = []) →
      grammar.FailInTurn setting expressions before after →
      ∃ again, grammar.FailInTurn setting others before again ∧
        before.SameButRecord after ∧ before.SameButRecord again ∧
        after.current.failure.Alike again.current.failure) ∧
    (∀ root : Rule, root.body = [.choice expressions] →
      ∀ machine : Machine Value, machine.HasTablesOf grammar → ∀ steps,
        (grammar.parseFrom setting steps root).ReportsLike
          (grammar.parseFrom setting steps { root with body := [.choice others] }) machine) ∧
    (∀ root : Rule, root.body = [.choice expressions] → grammar.CoversRules →
      Expression.areCovered grammar expressions = true → grammar.rule? root.name = none →
      ∀ machine : Machine Value, machine.HasTablesOf grammar → ∀ steps,
        ((grammar.withRoot root).parse setting steps).ReportsLike
          ((grammar.withRoot { root with body := [.choice others] }).parse setting steps)
          machine) := by
  refine ⟨?_, ?_, ?_⟩
  · intro before after hbefore hslots hfail
    exact hfail.exists_reordered ⟨hbefore, hslots⟩ hperm
  · intro root hroot machine hmachine steps
    exact parseFrom_reportsLike hcapacity hperm hroot hmachine steps
  · intro root hroot hgrammar hcovered hname machine hmachine steps
    cases steps with
    | zero =>
        intro error after hparse
        contradiction
    | succ steps =>
        have hbody : Expression.areCovered grammar root.body = true := by
          rw [hroot, areCovered_choice]
          exact hcovered
        have hotherBody : Expression.areCovered grammar [.choice others] = true := by
          rw [areCovered_choice, Expression.areCovered_iff]
          exact fun expression hmember =>
            Expression.areCovered_iff.mp hcovered expression (hperm.mem_iff.mpr hmember)
        rw [parse_withRoot setting root hgrammar hname hbody,
          parse_withRoot setting { root with body := [.choice others] } hgrammar hname hotherBody]
        exact parseFrom_reportsLike hcapacity hperm hroot hmachine steps

/-- Nothing begins with `+` alone: whichever alternative is tried first, the report is that a
term is missing after it. -/
theorem order_of_failing_alternatives_sums :
    let setting : Setting Nat := ⟨.ofText "+", .empty, .none⟩
    let machine := sums.machine setting
    let signed := .sequence (.plain "a signed term") [.terminal (.character '+'), .rule "term"]
    let start : List Expression → Rule := fun alternatives =>
      ⟨"start", "", none, [.choice alternatives]⟩
    sums.CoversRules ∧ sums.rule? "start" = none ∧
      (∃ after again, sums.FailInTurn setting [signed, .rule "sum"] machine after ∧
        sums.FailInTurn setting [.rule "sum", signed] machine again ∧
        after.current.failure.Alike again.current.failure) ∧
      (∃ again left, (sums.withRoot (start [.rule "sum", signed])).parse setting 20 machine =
          .finished (.error again) left ∧
        ParseError.SameUpToOrder ⟨1, "after '+'", ⟨["'x'"]⟩⟩ again) := by
  intro setting machine signed start
  have hgrammar : sums.CoversRules := by decide
  have hmachine := machine_hasTablesOf sums setting
  have hslots : ∀ table ∈ machine.tables, table.slots = [] := by decide
  have horder := order_of_failing_alternatives sums setting rfl (.swap (.rule "sum") signed [])
  obtain ⟨first, hfirst⟩ : ∃ effect, sums.FailsWith setting machine.position signed effect :=
    exists_failsWith (show (sums.attempt _ _ 20 signed 0).map Effect.matched = _ by decide +kernel)
  obtain ⟨second, hsecond⟩ :
      ∃ effect, sums.FailsWith setting machine.position (.rule "sum") effect :=
    exists_failsWith (show (sums.attempt _ _ 20 _ 0).map Effect.matched = _ by decide +kernel)
  obtain ⟨after, hfail, _⟩ :=
    exists_failInTurn ⟨hmachine, hslots⟩ (.cons hfirst (.cons hsecond .nil))
  obtain ⟨left, hparse⟩ : ∃ left, (sums.withRoot (start [signed, .rule "sum"])).parse setting 20
      machine = .finished (.error ⟨1, "after '+'", ⟨["'x'"]⟩⟩) left := by
    apply Outcome.eq_of_error?
    decide +kernel
  obtain ⟨again, hagain, _, _, halike⟩ := horder.1 machine after hmachine hslots hfail
  have hname : sums.rule? "start" = none := by decide
  have hreport : ((sums.withRoot (start [signed, .rule "sum"])).parse setting 20).ReportsLike
      ((sums.withRoot (start [.rule "sum", signed])).parse setting 20) machine :=
    horder.2.2 (start [signed, .rule "sum"]) rfl hgrammar (by decide) hname machine hmachine 20
  exact ⟨hgrammar, hname, ⟨after, again, hfail, hagain, halike⟩, hreport _ left hparse⟩

end Grammar

end Packrat
