import Packrat.Proofs.DerivedAttempts
import Packrat.Proofs.Positions

/-!
# What is recognized

Without memory, evaluating an expression ends with a match or with a failure exactly
where the big-step relation derives one.  A parse ends with a phrase exactly if the root
rule matches a prefix of the source, and with an error exactly if it fails.
-/

namespace Packrat

variable {Value : Type}

/-- In lockstep, only an attempt that ends lets a run finish. -/
theorem Outcome.Realizes.of_finished {regime : Regime Value} {before after : Machine Value}
    {matched : Bool} {attempted : Except Halt (Effect Value)} (hlockstep : regime.lockstep)
    (hrealizes : (Outcome.finished matched after).Realizes regime before attempted) :
    ∃ effect, attempted = .ok effect ∧ effect.matched = matched ∧
      after.position = effect.stop := by
  obtain ⟨effect, hattempted, hmatched, hafter, _⟩ := hrealizes.exists_effect hlockstep
  exact ⟨effect, hattempted, hmatched, hafter.position⟩

/-- How a run finishes can be seen. -/
instance Outcome.decidableFinishes (matched : Bool) (stop : Nat) :
    (outcome : Outcome Value Bool) →
      Decidable (∃ after, outcome = .finished matched after ∧ after.position = stop)
  | .finished result machine =>
      if hsame : result = matched ∧ machine.position = stop then
        .isTrue ⟨machine, by rw [hsame.1], hsame.2⟩
      else
        .isFalse fun ⟨_, houtcome, hposition⟩ => by
          obtain ⟨rfl, rfl⟩ := Outcome.finished.inj houtcome
          exact hsame ⟨rfl, hposition⟩
  | .faulted _ _ => .isFalse nofun
  | .exhausted => .isFalse nofun

namespace Grammar

variable {grammar : Grammar} {setting : Setting Value} {machine : Machine Value}
variable {expression : Expression}

/-- Without memory, an evaluation finishes as an attempt does, and the other way round. -/
theorem evaluate_finishes_iff (hready : (Regime.unmemoized grammar).Ready machine.tables)
    (matched : Bool) (stop : Nat) :
    (∃ steps after, grammar.evaluate setting steps expression machine =
        .finished matched after ∧ after.position = stop) ↔
      ∃ steps effect, grammar.attempt setting.source setting.semantics steps expression
        machine.position = .ok effect ∧ effect.matched = matched ∧ effect.stop = stop := by
  constructor
  · rintro ⟨steps, after, hfinished, hstop⟩
    have hrealizes := evaluate_realizes_unmemoized grammar setting steps expression machine
      hready
    rw [hfinished] at hrealizes
    obtain ⟨effect, hattempt, hmatched, hposition⟩ := hrealizes.of_finished trivial
    exact ⟨steps, effect, hattempt, hmatched, hposition.symm.trans hstop⟩
  · rintro ⟨steps, effect, hattempt, rfl, rfl⟩
    have hrealizes := evaluate_realizes_unmemoized grammar setting steps expression machine
      hready
    rw [hattempt] at hrealizes
    obtain ⟨after, hfinished, hafter, _⟩ := hrealizes
    exact ⟨steps, after, hfinished, hafter.position⟩

theorem evaluate_matches_iff_reaches
    (hready : (Regime.unmemoized grammar).Ready machine.tables) (stop : Nat) :
    (∃ steps after, grammar.evaluate setting steps expression machine =
        .finished true after ∧ after.position = stop) ↔
      grammar.Reaches setting.source setting.semantics expression machine.position
        (some stop) := by
  rw [evaluate_finishes_iff hready]
  simp only [Reaches, Effect.result_eq_some_iff]

theorem evaluate_fails_iff_reaches
    (hready : (Regime.unmemoized grammar).Ready machine.tables) :
    (∃ steps after, grammar.evaluate setting steps expression machine =
        .finished false after ∧ after.position = machine.position) ↔
      grammar.Reaches setting.source setting.semantics expression machine.position none := by
  rw [evaluate_finishes_iff hready]
  simp only [Reaches, Effect.result_eq_none_iff]
  constructor
  · rintro ⟨steps, effect, hattempt, hfailed, _⟩
    exact ⟨steps, effect, hattempt, hfailed⟩
  · rintro ⟨steps, effect, hattempt, hfailed⟩
    have hback := grammar.attempt_restores setting.source setting.semantics steps expression
      machine.position effect hattempt hfailed
    exact ⟨steps, effect, hattempt, hfailed, hback⟩

theorem position_of_evaluate_fails
    (hready : (Regime.unmemoized grammar).Ready machine.tables) {steps : Nat}
    {after : Machine Value}
    (hfinished : grammar.evaluate setting steps expression machine = .finished false after) :
    after.position = machine.position := by
  have hrealizes := evaluate_realizes_unmemoized grammar setting steps expression machine
    hready
  rw [hfinished] at hrealizes
  obtain ⟨effect, hattempt, hfailed, hposition⟩ := hrealizes.of_finished trivial
  rw [hposition]
  exact grammar.attempt_restores setting.source setting.semantics steps expression
    machine.position effect hattempt hfailed

section

variable {root : Rule} {others : List Rule} {steps : Nat}
variable {answer : Except ParseError (Phrase Value)} {after : Machine Value}

/-- A parse that ends has made a root attempt that ends, and is answered by a phrase if that
matches. -/
theorem attempt_of_parse (hrules : grammar.rules = root :: others)
    (hcapacity : setting.capacity.value = 0) (hmachine : machine.HasTablesOf grammar)
    (hparse : grammar.parse setting steps machine = .finished answer after) :
    ∃ effect, grammar.attempt setting.source setting.semantics steps (.rule root.name) 0 =
        .ok effect ∧
      after.position = effect.stop ∧ ((∃ phrase, answer = .ok phrase) ↔ effect.matched = true) := by
  have hanswers := grammar.parse_answers_unmemoized setting hmachine hcapacity steps
  have hroot : grammar.rootAttempt setting.source setting.semantics steps =
      grammar.attempt setting.source setting.semantics steps (.rule root.name) := by
    rw [rootAttempt, hrules]
  rw [hparse, hroot] at hanswers
  obtain ⟨effect, hattempt, hposition, hanswer⟩ := hanswers.of_finished trivial
  refine ⟨effect, hattempt, hposition, ?_⟩
  cases hmatched : effect.matched with
  | true =>
      simp only [hmatched, Machine.answer?, if_true, Option.some.injEq] at hanswer
      simp [← hanswer]
  | false =>
      simp only [hmatched, Machine.answer?, Bool.false_eq_true, if_false,
        Option.map_eq_some_iff] at hanswer
      obtain ⟨error, _, rfl⟩ := hanswer
      simp

/-- A root attempt that ends lets the parse end: nothing is left open, and whatever failed did
so inside the source. -/
theorem exists_parse_of_attempt (hrules : grammar.rules = root :: others)
    (hcapacity : setting.capacity.value = 0) (hmachine : machine.HasTablesOf grammar)
    {effect : Effect Value}
    (hattempt : grammar.attempt setting.source setting.semantics steps (.rule root.name) 0 =
      .ok effect) :
    ∃ answer after, grammar.parse setting steps machine = .finished answer after := by
  have hrealizes := evaluate_realizes_unmemoized grammar setting steps (.rule root.name)
    (machine.start setting) (hmachine.unmemoized_start hcapacity)
  have hposition : (machine.start setting).position = 0 := rfl
  rw [hposition, hattempt] at hrealizes
  obtain ⟨left, hfinished, hleft, _⟩ := hrealizes
  have hroot : grammar.root setting steps (machine.start setting) =
      .finished effect.matched left := by
    rw [Grammar.root, hrules]
    exact hfinished
  exact exists_parse_of_root hroot (Prod.mk.inj hleft.stack).2

/-- A parse that ends is answered by a phrase exactly if the root attempt matches. -/
theorem parse_ok_iff_reaches (hrules : grammar.rules = root :: others)
    (hcapacity : setting.capacity.value = 0) (hmachine : machine.HasTablesOf grammar)
    (hparse : grammar.parse setting steps machine = .finished answer after) (stop : Nat) :
    ((∃ phrase, answer = .ok phrase) ∧ after.position = stop) ↔
      grammar.Reaches setting.source setting.semantics (.rule root.name) 0 (some stop) := by
  obtain ⟨effect, hattempt, hposition, hok⟩ :=
    attempt_of_parse hrules hcapacity hmachine hparse
  rw [hok, hposition, ← Effect.result_eq_some_iff]
  constructor
  · intro hresult
    exact ⟨steps, effect, hattempt, hresult⟩
  · rintro ⟨enough, other, hother, hresult⟩
    have hagree := grammar.attempt_agree setting.source setting.semantics
      (by rw [hattempt]; simp) (by rw [hother]; simp)
    obtain rfl := Except.ok.inj (hattempt.symm.trans (hagree.trans hother))
    exact hresult

/-- With enough steps, a parse ends with a phrase exactly if the root attempt matches. -/
theorem parse_accepts_iff_reaches (hrules : grammar.rules = root :: others)
    (hcapacity : setting.capacity.value = 0) (hmachine : machine.HasTablesOf grammar)
    (stop : Nat) :
    (∃ steps phrase after, grammar.parse setting steps machine =
        .finished (.ok phrase) after ∧ after.position = stop) ↔
      grammar.Reaches setting.source setting.semantics (.rule root.name) 0 (some stop) := by
  constructor
  · rintro ⟨steps, phrase, after, hparse, hstop⟩
    exact (parse_ok_iff_reaches hrules hcapacity hmachine hparse stop).mp ⟨⟨phrase, rfl⟩, hstop⟩
  · intro hroot
    have ⟨steps, effect, hattempt, _⟩ := hroot
    obtain ⟨answer, after, hparse⟩ :=
      exists_parse_of_attempt hrules hcapacity hmachine hattempt
    obtain ⟨⟨phrase, rfl⟩, hstop⟩ :=
      (parse_ok_iff_reaches hrules hcapacity hmachine hparse stop).mpr hroot
    exact ⟨steps, phrase, after, hparse, hstop⟩

/-- With enough steps, a parse ends with an error exactly if the root attempt fails. -/
theorem parse_rejects_iff_reaches (hrules : grammar.rules = root :: others)
    (hcapacity : setting.capacity.value = 0) (hmachine : machine.HasTablesOf grammar) :
    (∃ steps error after, grammar.parse setting steps machine =
        .finished (.error error) after) ↔
      grammar.Reaches setting.source setting.semantics (.rule root.name) 0 none := by
  constructor
  · rintro ⟨steps, error, after, hparse⟩
    obtain ⟨effect, hattempt, _, hok⟩ := attempt_of_parse hrules hcapacity hmachine hparse
    have hfailed : effect.matched = false :=
      Bool.eq_false_iff.mpr fun hmatched => nomatch hok.mpr hmatched
    exact ⟨steps, effect, hattempt, Effect.result_eq_none_iff.mpr hfailed⟩
  · rintro ⟨steps, effect, hattempt, hresult⟩
    obtain ⟨answer, after, hparse⟩ :=
      exists_parse_of_attempt hrules hcapacity hmachine hattempt
    obtain ⟨other, hother, _, hok⟩ := attempt_of_parse hrules hcapacity hmachine hparse
    obtain rfl := Except.ok.inj (hattempt.symm.trans hother)
    cases answer with
    | error error => exact ⟨steps, error, after, hparse⟩
    | ok phrase =>
        have hfailed := Effect.result_eq_none_iff.mp hresult
        rw [hok.mp ⟨phrase, rfl⟩] at hfailed
        contradiction

end

/-- The primitives implement the big-step relation.  Without memory, evaluation ends with
a match up to a position exactly if one is derivable, and with a failure exactly if that
is derivable, and then the cursor is back.  A parse ends with a phrase exactly if the root
rule matches a prefix, at whose end the cursor is left, and with an error exactly if the
root rule fails. -/
theorem evaluate_iff_derives (grammar : Grammar) (setting : Setting Value)
    (hgrammar : grammar.Provides grammar.users)
    (hactions : grammar.ActionsAnswer setting.source setting.semantics)
    (husers : grammar.Provides expression.users)
    (hcapacity : setting.capacity.value = 0) (hmachine : machine.HasTablesOf grammar)
    (hslots : ∀ table ∈ machine.tables, table.slots = []) :
    (∀ stop, (∃ steps after, grammar.evaluate setting steps expression machine =
        .finished true after ∧ after.position = stop) ↔
      grammar.Derives setting.source expression machine.position (some stop)) ∧
    ((∃ steps after, grammar.evaluate setting steps expression machine =
        .finished false after ∧ after.position = machine.position) ↔
      grammar.Derives setting.source expression machine.position none) ∧
    (∀ steps after, grammar.evaluate setting steps expression machine =
        .finished false after → after.position = machine.position) ∧
    ∀ root others, grammar.rules = root :: others →
      (∀ steps answer after,
        grammar.parse setting steps machine = .finished answer after → ∀ stop,
          ((∃ phrase, answer = .ok phrase) ∧ after.position = stop) ↔
            grammar.Derives setting.source (.rule root.name) 0 (some stop)) ∧
      (∀ stop, (∃ steps phrase after, grammar.parse setting steps machine =
          .finished (.ok phrase) after ∧ after.position = stop) ↔
        grammar.Derives setting.source (.rule root.name) 0 (some stop)) ∧
      ((∃ steps error after, grammar.parse setting steps machine =
          .finished (.error error) after) ↔
        grammar.Derives setting.source (.rule root.name) 0 none) := by
  have hready : (Regime.unmemoized grammar).Ready machine.tables := ⟨hmachine, hslots⟩
  refine ⟨?_, ?_, ?_, ?_⟩
  · intro stop
    rw [evaluate_matches_iff_reaches hready]
    exact reaches_iff_derives hgrammar hactions husers
  · rw [evaluate_fails_iff_reaches hready]
    exact reaches_iff_derives hgrammar hactions husers
  · intro steps after hfinished
    exact position_of_evaluate_fails hready hfinished
  · intro root others hrules
    have hroot : ∀ result,
        grammar.Reaches setting.source setting.semantics (.rule root.name) 0 result ↔
          grammar.Derives setting.source (.rule root.name) 0 result :=
      fun _ => reaches_iff_derives hgrammar hactions fun _ huser => nomatch huser
    refine ⟨?_, ?_, ?_⟩
    · intro steps answer after hparse stop
      exact (parse_ok_iff_reaches hrules hcapacity hmachine hparse stop).trans (hroot _)
    · intro stop
      exact (parse_accepts_iff_reaches hrules hcapacity hmachine stop).trans (hroot _)
    · exact (parse_rejects_iff_reaches hrules hcapacity hmachine).trans (hroot _)

/-- A sum that is evaluated to its end is derivable. -/
theorem evaluate_iff_derives_sums :
    let setting : Setting Nat := ⟨.ofText "x+x", .empty, .none⟩
    sums.Provides sums.users ∧ sums.Provides (Expression.rule "sum").users ∧
      sums.ActionsAnswer setting.source setting.semantics ∧
      (∀ table ∈ (sums.machine setting).tables, table.slots = []) ∧
      sums.Derives setting.source (.rule "sum") 0 (some 3) := by
  intro setting
  have hgrammar : sums.Provides sums.users := by decide
  have husers : sums.Provides (Expression.rule "sum").users := by decide
  have hactions : sums.ActionsAnswer setting.source setting.semantics :=
    .of_forall sums setting.source nofun
  have hslots : ∀ table ∈ (sums.machine setting).tables, table.slots = [] := by decide
  refine ⟨hgrammar, husers, hactions, hslots, ?_⟩
  have hsemantics := evaluate_iff_derives sums setting hgrammar hactions husers rfl
    (machine_hasTablesOf sums setting) hslots
  exact (hsemantics.1 3).mp ⟨20, by decide +kernel⟩

end Grammar

end Packrat
