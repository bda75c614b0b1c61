import Packrat.Grammar.Steps
import Packrat.Proofs.DerivedAttempts
import Packrat.Proofs.MemoTransparency
import Packrat.Proofs.Ranking

/-!
# Grammars whose evaluations end

Where the rules are ranked, every expression has a result at every position, so without memory
every evaluation ends.  With memory it ends as well, provided that the tables hold nothing but
what evaluations of the same grammar have left in them.
-/

namespace Packrat

variable {Value : Type}

/-! ## Tables that exist -/

theorem Opening.provides_user {grammar : Grammar} {opening : Opening}
    (hopening : opening.isCovered grammar = true) (expression : Expression) :
    grammar.Provides (opening.user expression) := by
  cases opening with
  | plain diagnosis => exact nofun
  | memoized table =>
      intro user huser
      obtain rfl := List.mem_singleton.mp huser
      exact of_decide_eq_true hopening

namespace Grammar

variable {grammar : Grammar}

theorem Provides.append {users others : List (Nat × Expression)} (husers : grammar.Provides users)
    (hothers : grammar.Provides others) : grammar.Provides (users ++ others) := by
  intro user huser
  rcases List.mem_append.mp huser with hfirst | hsecond
  · exact husers user hfirst
  · exact hothers user hsecond

mutual

theorem provides_of_isCovered :
    ∀ expression : Expression, expression.isCovered grammar = true →
      grammar.Provides expression.users
  | .terminal _, _ | .ahead _, _ | .aheadNot _, _ | .rule _, _ => nofun
  | .choice alternatives, hcovered => provides_of_areCovered alternatives hcovered
  | .optional body, hcovered | .star body, hcovered | .plus body, hcovered =>
      provides_of_isCovered body hcovered
  | .sequence _ parts, hcovered =>
      .append (Opening.provides_user (Bool.and_eq_true_iff.mp hcovered).1 _)
        (provides_of_areCovered parts (Bool.and_eq_true_iff.mp hcovered).2)
  | .andPredicate _ argument, hcovered | .notPredicate _ argument, hcovered =>
      .append (Opening.provides_user (Bool.and_eq_true_iff.mp hcovered).1 _)
        (provides_of_isCovered argument (Bool.and_eq_true_iff.mp hcovered).2)

theorem provides_of_areCovered :
    ∀ items : List Expression, Expression.areCovered grammar items = true →
      grammar.Provides (Expression.usersOfAll items)
  | [], _ => nofun
  | first :: others, hcovered =>
      .append (provides_of_isCovered first (Bool.and_eq_true_iff.mp hcovered).1)
        (provides_of_areCovered others (Bool.and_eq_true_iff.mp hcovered).2)

end

/-- A complete grammar has all the tables that it uses. -/
theorem provides_of_isComplete (hgrammar : grammar.isComplete = true) :
    grammar.Provides grammar.users := by
  intro user huser
  obtain ⟨rule, hrule, huser⟩ := List.mem_flatMap.mp huser
  rw [isComplete, Bool.and_eq_true] at hgrammar
  obtain ⟨htable, hbody⟩ := Bool.and_eq_true_iff.mp (List.all_eq_true.mp hgrammar.2 rule hrule)
  rcases List.mem_append.mp huser with hself | hpart
  · obtain ⟨table, htables, rfl⟩ := List.mem_map.mp hself
    rw [Option.mem_toList.mp htables] at htable
    exact of_decide_eq_true htable
  · exact provides_of_areCovered rule.body hbody user hpart

/-! ## Attempts -/

/-- The expression refers to rules and tables that the grammar has, and takes to its tables as
the grammar does. -/
structure Admits (grammar : Grammar) (expression : Expression) : Prop where
  covered : expression.isCovered grammar = true
  users_subset : expression.users ⊆ grammar.users

variable {source : Source} {semantics : Semantics Value} {expression body : Expression}
variable {position : Nat}

/-- Every attempt at an expression of the grammar has an effect in the end. -/
def AttemptsAnswer (grammar : Grammar) (source : Source) (semantics : Semantics Value) : Prop :=
  ∀ expression, grammar.Admits expression → ∀ position, ∃ steps effect,
    grammar.attempt source semantics steps expression position = .ok effect

theorem attemptsAnswer_of_ranked (hgrammar : grammar.isComplete = true)
    (hactions : grammar.ActionsAnswer source semantics) {rank : String → Nat}
    (hrank : grammar.IsRankedBy rank) : grammar.AttemptsAnswer source semantics := by
  intro expression hexpression position
  have hprovides := provides_of_isComplete hgrammar
  obtain ⟨result, hderives⟩ :=
    decides_of_ranked hgrammar hrank source position hexpression.covered
  obtain ⟨steps, effect, heffect, _⟩ :=
    (reaches_iff_derives hprovides hactions (hprovides.mono hexpression.users_subset)).mpr hderives
  exact ⟨steps, effect, heffect⟩

/-- An expression has one result at a position. -/
theorem Admits.result_unique (hgrammar : grammar.isComplete = true)
    (hactions : grammar.ActionsAnswer source semantics) (hexpression : grammar.Admits expression)
    {first second : Option Nat} (hfirst : grammar.Derives source expression position first)
    (hsecond : grammar.Derives source expression position second) : first = second := by
  have hprovides := provides_of_isComplete hgrammar
  have husers := hprovides.mono hexpression.users_subset
  obtain ⟨steps, effect, heffect, rfl⟩ :=
    (reaches_iff_derives hprovides hactions husers).mpr hfirst
  obtain ⟨more, other, hother, rfl⟩ :=
    (reaches_iff_derives hprovides hactions husers).mpr hsecond
  have hagree := grammar.attempt_agree source semantics
    (show grammar.attempt source semantics steps expression position ≠ _ by rw [heffect]; nofun)
    (show grammar.attempt source semantics more expression position ≠ _ by rw [hother]; nofun)
  rw [Except.ok.inj (heffect.symm.trans (hagree.trans hother))]

/-- A repetition matches, and ends where its body fails or stays in place. -/
theorem Derives.of_star {result : Option Nat}
    (hstar : grammar.Derives source (.star body) position result) :
    ∃ stop last, result = some stop ∧ grammar.Derives source body stop last ∧
      last.getD stop = stop := by
  induction hremaining : source.length - position using Nat.strongRecOn generalizing position with
  | ind remaining ih =>
      cases hstar with
      | starEnds hbody => exact ⟨position, none, rfl, hbody, rfl⟩
      | starStalls hbody => exact ⟨position, some position, rfl, hbody, rfl⟩
      | @starAdvances _ _ middle _ hbody hadvances hagain =>
          rcases hbody.moves middle rfl with hstill | ⟨hlater, hinside⟩
          · exact absurd hstill hadvances
          · exact ih (source.length - middle) (by omega) hagain rfl

/-! ## Tables that evaluations have filled -/

/-- The tables hold nothing but what evaluations of the grammar have left in them since a parse
began, wherever and in whatever phrases these evaluations took place. -/
inductive Fills (grammar : Grammar) (setting : Setting Value) : List (MemoTable Value) → Prop
  | start {machine : Machine Value} (hmachine : machine.HasTablesOf grammar) :
      Fills grammar setting (machine.start setting).tables
  | evaluate {before after : Machine Value} {expression : Expression} {steps : Nat}
      {matched : Bool} (hbefore : Fills grammar setting before.tables)
      (hexpression : grammar.Admits expression)
      (hfinished : grammar.evaluate setting steps expression before = .finished matched after) :
      Fills grammar setting after.tables

variable {setting : Setting Value} {machine after : Machine Value} {steps : Nat} {matched : Bool}

/-- An evaluation that finishes does so within any larger number of steps. -/
theorem evaluate_of_finished {more : Nat} (hsteps : steps ≤ more)
    (hfinished : grammar.evaluate setting steps expression machine = .finished matched after) :
    grammar.evaluate setting more expression machine = .finished matched after := by
  rw [evaluate_extendedBy grammar setting hsteps expression machine (by simp [hfinished]),
    hfinished]

/-- Where an attempt has an effect, the evaluation has it too. -/
theorem evaluate_of_attempt (hexclusive : grammar.tablesInUse.Nodup)
    (hexpression : grammar.Admits expression)
    (hremembers : grammar.Remembers setting.source setting.semantics steps machine.tables)
    {effect : Effect Value}
    (heffect : grammar.attempt setting.source setting.semantics steps expression
      machine.position = .ok effect) :
    ∃ after, grammar.evaluate setting steps expression machine =
        .finished effect.matched after ∧ after.position = effect.stop ∧
      grammar.Enriched setting.source setting.semantics machine.tables after.tables := by
  have hrealizes := evaluate_realizes_remembering hexclusive setting (Nat.le_refl steps)
    hexpression.users_subset machine hremembers
  rw [heffect] at hrealizes
  obtain ⟨after, hfinished, hafter, hkept⟩ := hrealizes
  exact ⟨after, hfinished, hafter.position, hkept⟩

/-- If all attempts answer, such tables are in order for any number of steps. -/
theorem Fills.remembers (hexclusive : grammar.tablesInUse.Nodup)
    (hattempts : grammar.AttemptsAnswer setting.source setting.semantics)
    {tables : List (MemoTable Value)} (hfills : grammar.Fills setting tables) (bound : Nat) :
    grammar.Remembers setting.source setting.semantics bound tables := by
  induction hfills generalizing bound with
  | start hmachine => exact remembers_start hmachine
  | @evaluate before after expression steps matched _ hexpression hfinished ih =>
      obtain ⟨enough, effect, heffect⟩ := hattempts expression hexpression before.position
      let more := max bound (max enough steps)
      have hmore := (grammar.attempt_extendedBy setting.source setting.semantics
        (show enough ≤ more by omega) expression).eq_ok heffect
      obtain ⟨reached, hreached, _, hkept⟩ :=
        evaluate_of_attempt hexclusive hexpression (ih more) hmore
      have hsame := evaluate_of_finished (show steps ≤ more by omega) hfinished
      obtain ⟨_, rfl⟩ := Outcome.finished.inj (hsame.symm.trans hreached)
      exact ((ih more).of_enriched hkept).mono (by omega)

/-- The only way in which an evaluation can end. -/
theorem Fills.exists_finished (hexclusive : grammar.tablesInUse.Nodup)
    (hattempts : grammar.AttemptsAnswer setting.source setting.semantics)
    (hfills : grammar.Fills setting machine.tables) (hexpression : grammar.Admits expression) :
    ∃ result after steps, grammar.Derives setting.source expression machine.position result ∧
      after.position = result.getD machine.position ∧
      grammar.evaluate setting steps expression machine = .finished result.isSome after ∧
      ∀ {fewer matched other}, grammar.evaluate setting fewer expression machine =
        .finished matched other → matched = result.isSome ∧ other = after := by
  obtain ⟨steps, effect, heffect⟩ := hattempts expression hexpression machine.position
  obtain ⟨after, hfinished, hposition, _⟩ := evaluate_of_attempt hexclusive hexpression
    (hfills.remembers hexclusive hattempts steps) heffect
  have hmatched : effect.matched = effect.result.isSome := by
    cases hmatched : effect.matched <;> simp [Effect.result, hmatched]
  rw [hmatched] at hfinished
  refine ⟨effect.result, after, steps, derives_of_attempt heffect, ?_, hfinished, ?_⟩
  · rw [grammar.getD_result_of_attempt setting.source setting.semantics heffect]
    exact hposition
  · intro fewer matched other hother
    have hfirst := evaluate_of_finished (Nat.le_max_left steps fewer) hfinished
    have hsecond := evaluate_of_finished (Nat.le_max_right steps fewer) hother
    exact Outcome.finished.inj (hsecond.symm.trans hfirst)

theorem Admits.of_star (hstar : grammar.Admits (.star body)) : grammar.Admits body :=
  ⟨hstar.covered, hstar.users_subset⟩

theorem exists_parse_ends (hgrammar : grammar.isComplete = true)
    (hexclusive : grammar.tablesInUse.Nodup)
    (hattempts : grammar.AttemptsAnswer setting.source setting.semantics)
    (hmachine : machine.HasTablesOf grammar) :
    ∃ steps, grammar.parse setting steps machine ≠ .exhausted := by
  cases hrules : grammar.rules with
  | nil => simp [isComplete, hrules] at hgrammar
  | cons root rest =>
      have hadmits : grammar.Admits (.rule root.name) :=
        ⟨by simp [Expression.isCovered, rule?, hrules], List.nil_subset _⟩
      obtain ⟨steps, effect, heffect⟩ := hattempts (.rule root.name) hadmits 0
      have hroot : grammar.rootAttempt setting.source setting.semantics steps 0 = .ok effect := by
        rw [rootAttempt, hrules]
        exact heffect
      have hanswers := parse_answers_remembering hexclusive setting hmachine (Nat.le_refl steps)
      rw [hroot] at hanswers
      obtain ⟨after, houtcome, _⟩ := hanswers
      refine ⟨steps, ?_⟩
      rw [houtcome]
      cases hanswer : Machine.answer? setting effect.matched
          (effect.applyTo (.opened "" "" 0)) effect.stop <;> simp

/-! ## Ranked rules -/

/-- A grammar without left recursion never goes on for ever.

Let the grammar be complete and use each table in one place, let no action fault, and let the
rules be ranked so that whatever a rule refers to, without a consuming expression in front of it,
has a smaller rank.  Then every evaluation of an expression of the grammar finishes, at any
position and in any phrases, with memory of any capacity, whatever other evaluations have left in
it.  A consuming expression that matches moves the cursor on.  A repetition matches, and stops
where its body fails or does not advance: evaluated there once more, the body leaves the cursor
where it is.  So a parse ends, too. -/
theorem evaluation_ends_of_ranked (grammar : Grammar) (setting : Setting Value)
    (hgrammar : grammar.isComplete = true) (hexclusive : grammar.tablesInUse.Nodup)
    (hactions : grammar.ActionsAnswer setting.source setting.semantics)
    {rank : String → Nat} (hrank : grammar.IsRankedBy rank) :
    (∀ machine : Machine Value, grammar.Fills setting machine.tables →
      ∀ expression, grammar.Admits expression →
        (∃ steps matched after,
          grammar.evaluate setting steps expression machine = .finished matched after) ∧
        (grammar.Consuming expression → ∀ steps after,
          grammar.evaluate setting steps expression machine = .finished true after →
            machine.position < after.position) ∧
        (∀ body, expression = .star body → ∀ steps matched after,
          grammar.evaluate setting steps expression machine = .finished matched after →
            matched = true ∧ ∃ more again last,
              grammar.evaluate setting more body after = .finished again last ∧
                last.position = after.position)) ∧
    ∀ machine : Machine Value, machine.HasTablesOf grammar →
      ∃ steps, grammar.parse setting steps machine ≠ .exhausted := by
  have hattempts := attemptsAnswer_of_ranked hgrammar hactions hrank
  refine ⟨?_, ?_⟩
  · intro machine hfills expression hexpression
    obtain ⟨result, after, steps, hderives, hposition, hfinished, hunique⟩ :=
      hfills.exists_finished hexclusive hattempts hexpression
    refine ⟨⟨steps, _, after, hfinished⟩, ?_, ?_⟩
    · intro hconsuming fewer other hother
      obtain ⟨hmatched, rfl⟩ := hunique hother
      obtain ⟨stop, rfl⟩ := Option.isSome_iff_exists.mp hmatched.symm
      rw [hposition]
      exact hconsuming.lt hderives
    · rintro body rfl fewer matched other hother
      obtain ⟨stop, last, rfl, hbody, hstill⟩ := hderives.of_star
      have hafter : grammar.Fills setting other.tables := .evaluate hfills hexpression hother
      obtain ⟨rfl, rfl⟩ := hunique hother
      obtain ⟨again, reached, more, hagain, hreached, hevaluated, _⟩ :=
        hafter.exists_finished hexclusive hattempts hexpression.of_star
      have hstop : other.position = stop := hposition
      rw [hstop] at hagain hreached
      obtain rfl := hexpression.of_star.result_unique hgrammar hactions hagain hbody
      exact ⟨rfl, more, _, reached, hevaluated, hreached.trans (hstill.trans hstop.symm)⟩
  · intro machine hmachine
    exact exists_parse_ends hgrammar hexclusive hattempts hmachine

theorem consuming_term : sums.Consuming (.rule "term") :=
  .rule (show sums.rule? "term" = some ⟨"term", "a term", some 2, [.terminal (.character 'x')]⟩
    from rfl) List.mem_cons_self (.terminal nofun nofun)

/-- A sum begins with a term, which begins with a character. -/
theorem isRankedBy_sums :
    sums.IsRankedBy fun name => if name = "sums" then 2 else if name = "sum" then 1 else 0 := by
  intro name rule hrule target hunguarded
  have hname : rule.name = name := by simpa using List.find?_some hrule
  subst hname
  have hmember : rule ∈ sums.rules := List.mem_of_find?_eq_some hrule
  simp only [sums, List.mem_cons, List.not_mem_nil, or_false] at hmember
  rcases hmember with rfl | rfl | rfl <;>
    simp only [Expression.RowLeavesUnguarded, Expression.LeavesUnguarded,
      Expression.SomeLeavesUnguarded, consuming_term, not_true, false_and, and_false, or_false,
      or_self] at hunguarded <;>
    subst hunguarded <;> decide

/-- Evaluations of sums end, here in a sum of two terms, and with one slot for each table. -/
theorem evaluation_ends_of_ranked_sums :
    let setting : Setting Nat := ⟨.ofText "x+x", .empty, ⟨1, by decide⟩⟩
    let machine := (sums.machine setting).start setting
    let terms := .star (.rule "term")
    sums.Fills setting machine.tables ∧ sums.Admits terms ∧ sums.Consuming (.rule "term") ∧
      (∃ steps matched after,
        sums.evaluate setting steps terms (machine.moveTo 1) = .finished matched after) ∧
      ∃ steps, sums.parse setting steps (sums.machine setting) ≠ .exhausted := by
  intro setting machine terms
  have hmachine := machine_hasTablesOf sums setting
  have hfills : sums.Fills setting machine.tables := .start hmachine
  have hterms : sums.Admits terms := ⟨by decide, List.nil_subset _⟩
  have hends := evaluation_ends_of_ranked sums setting (by decide) (by decide)
    (.of_forall sums setting.source nofun) isRankedBy_sums
  exact ⟨hfills, hterms, consuming_term, (hends.1 (machine.moveTo 1) hfills terms hterms).1,
    hends.2 (sums.machine setting) hmachine⟩

end Grammar

end Packrat
