import Packrat.Proofs.Advance
import Packrat.Proofs.ProcedureLogic

/-!
# Attempts that fail leave no trace

Alternatives can be tried one after the other because an expression that fails takes back
whatever it has done, save for what it has recorded as failed.  This holds of terminals and
of every phrase that is opened and closed again, and it is kept by all combinations that a
grammar has.  A list of parts in a row does not have it, which is why sequences open a
phrase.
-/

namespace Packrat

variable {Value : Type} {setting : Setting Value} {count : Nat}

namespace Procedure

/-- On every core with enough tables, all calls are permitted, and the procedure advances or
fails without a trace. -/
def IsAtomic (setting : Setting Value) (count : Nat) (procedure : Procedure Value) : Prop :=
  ∀ core : Core Value, core.Forward count →
    procedure.Ensures setting (Core.Forward count)
      (fun matched after => after.Forward count ∧ core.Advances matched after) core

/-- The same, except that a failure may leave what has matched before it. -/
def IsForward (setting : Setting Value) (count : Nat) (procedure : Procedure Value) : Prop :=
  ∀ core : Core Value, core.Forward count →
    procedure.Ensures setting (Core.Forward count)
      (fun _ after => after.Forward count ∧ core.Advances true after) core

variable {procedure body again : Procedure Value} {next : Bool → Procedure Value}

theorem IsAtomic.isForward (hprocedure : procedure.IsAtomic setting count) :
    procedure.IsForward setting count :=
  fun core hcore =>
    (hprocedure core hcore).mono fun _ _ hafter => ⟨hafter.1, hafter.2.toMatched⟩

/-- A procedure that always matches has nothing to take back. -/
theorem IsForward.isAtomic (hprocedure : procedure.IsForward setting count)
    (hmatches : procedure.AlwaysMatches) : procedure.IsAtomic setting count := by
  intro core hcore
  apply ((hprocedure core hcore).of_alwaysMatches hmatches).mono
  rintro matched after ⟨rfl, hafter⟩
  exact hafter

theorem IsAtomic.done (matched : Bool) :
    (Procedure.done matched : Procedure Value).IsAtomic setting count :=
  fun core hcore => ⟨hcore, .refl core matched⟩

theorem IsAtomic.exhausted : (Procedure.exhausted : Procedure Value).IsAtomic setting count :=
  fun _ _ => trivial

theorem IsAtomic.remarked (hprocedure : procedure.IsAtomic setting count) (name : String) :
    (procedure.remarked name).IsAtomic setting count :=
  fun core hcore => (hprocedure core hcore).remarked name

/-! ## One after the other -/

theorem IsForward.andThen (hprocedure : procedure.IsForward setting count)
    (hnext : ∀ matched, (next matched).IsForward setting count) :
    (procedure.andThen next).IsForward setting count := by
  intro core hcore
  apply Ensures.andThen
  apply (hprocedure core hcore).mono
  rintro matched between ⟨hforward, hbetween⟩
  apply (hnext matched between hforward).mono
  rintro _ after ⟨hafter, hlast⟩
  exact ⟨hafter, hbetween.trans hlast id⟩

/-- What comes after a match has to match itself, since the match is not taken back. -/
theorem IsAtomic.andThen (hprocedure : procedure.IsAtomic setting count)
    (hmatched : (next true).IsForward setting count) (hmatches : (next true).AlwaysMatches)
    (hfailed : (next false).IsAtomic setting count) :
    (procedure.andThen next).IsAtomic setting count := by
  intro core hcore
  apply Ensures.andThen
  apply (hprocedure core hcore).mono
  rintro matched between ⟨hforward, hbetween⟩
  cases matched with
  | false =>
      apply (hfailed between hforward).mono
      rintro second after ⟨hafter, hlast⟩
      exact ⟨hafter, hbetween.trans hlast fun _ => rfl⟩
  | true =>
      apply ((hmatched between hforward).of_alwaysMatches hmatches).mono
      rintro second after ⟨rfl, hafter, hlast⟩
      exact ⟨hafter, hbetween.trans hlast id⟩

/-- One part after the other, up to the first that fails. -/
theorem IsForward.all {Item : Type} {items : List Item} {procedure : Item → Procedure Value}
    (hitems : ∀ item ∈ items, (procedure item).IsAtomic setting count) :
    (Procedure.all (items.map procedure)).IsForward setting count := by
  induction items with
  | nil => exact (IsAtomic.done true).isForward
  | cons item rest ih =>
      obtain ⟨hitem, hrest⟩ := List.forall_mem_cons.mp hitems
      apply hitem.isForward.andThen
      intro matched
      cases matched with
      | false => exact (IsAtomic.done false).isForward
      | true => exact ih hrest

theorem IsForward.optional (hbody : body.IsForward setting count) :
    (body.andThen fun _ => .done true).IsAtomic setting count := by
  have hforward := hbody.andThen fun _ => (IsAtomic.done true).isForward
  exact hforward.isAtomic (.andThen (fun _ => .done) body)

/-- One alternative after the other, up to the first that matches. -/
theorem IsAtomic.any {Item : Type} {items : List Item} {procedure : Item → Procedure Value}
    (hitems : ∀ item ∈ items, (procedure item).IsAtomic setting count) :
    (Procedure.any (items.map procedure)).IsAtomic setting count := by
  induction items with
  | nil => exact .done false
  | cons item rest ih =>
      obtain ⟨hitem, hrest⟩ := List.forall_mem_cons.mp hitems
      exact hitem.andThen (IsAtomic.done true).isForward .done (ih hrest)

theorem IsForward.round (hbody : body.IsForward setting count)
    (hagain : again.IsForward setting count) :
    (Procedure.round body again).IsForward setting count := by
  have hdone : (Procedure.done true : Procedure Value).IsForward setting count :=
    (IsAtomic.done true).isForward
  intro core hcore
  apply hbody.andThen _ core hcore
  intro matched
  cases matched with
  | false => exact hdone
  | true =>
      intro between hbetween
      simp only [if_true, ifAdvanced, Ensures]
      split
      · exact hdone between hbetween
      · exact hagain between hbetween

/-! ## Calls -/

theorem IsAtomic.terminal {primitive : Primitive} {attempt : Attempt Value}
    (hattempt : primitive.attempt? setting.source = some attempt) :
    (Procedure.call primitive).IsAtomic setting count := by
  intro core hcore
  apply Ensures.call
  · cases primitive <;> trivial
  · intro answer after hstep
    have hafter : after.Forward count := by
      apply hstep.forward hcore
      rintro closing rfl
      simp [Primitive.attempt?] at hattempt
    obtain ⟨effect, heffect, rfl, rfl⟩ := hstep.eq_of_attempt hattempt
    exact ⟨hafter, hafter, .terminal hattempt heffect⟩

/-- Taking a result that a table has offered for the cursor. -/
theorem Ensures.reuse {core : Core Value} {part : Phrase Value}
    {tables : List (MemoTable Value)} (use : PhraseUse)
    (hoffered : Core.Forward count { core with candidate := some part, tables := tables })
    (hstop : part.success = true → core.position ≤ part.stop) :
    (Procedure.call (.reuse use)).Ensures setting (Core.Forward count)
      (fun matched after => after.Forward count ∧ core.Advances matched after)
      { core with candidate := some part, tables := tables } := by
  apply Ensures.call
  · simp [Core.Permits]
  · intro answer after hstep
    have hafter : after.Forward count := hstep.forward hoffered (by simp)
    obtain ⟨taken, htaken, rfl, rfl⟩ := hstep.eq_of_reuse
    obtain rfl := Option.some.inj htaken
    exact ⟨hafter, hafter, .taking use tables hstop⟩

/-- Whatever happens in a phrase that has been opened, closing it undoes a failure. -/
theorem IsForward.closedAfter (hbody : body.IsForward setting count) (enclosure : Enclosure)
    {core : Core Value} {name diagnosis : String} {ticket : Option Ticket}
    {tables : List (MemoTable Value)}
    (hopened : (core.opening name diagnosis ticket tables).Forward count) :
    (Procedure.closedAfter enclosure body).Ensures setting (Core.Forward count)
      (fun matched after => after.Forward count ∧ core.Advances matched after)
      (core.opening name diagnosis ticket tables) := by
  apply Ensures.andThen
  apply (hbody _ hopened).mono
  rintro matched between ⟨hbetween, hadvances⟩
  obtain ⟨phrase, hstart, hstack⟩ := hadvances.stack_of_opening
  apply Ensures.call
  · simp [Core.Permits, hstack]
  · intro answer after hstep
    have hafter : after.Forward count := by
      apply hstep.forward hbetween
      intro closing _ frame hframe
      rw [hstack, List.head?_cons, Option.mem_some] at hframe
      rw [← hframe, hstart]
      exact hadvances.position_le
    obtain ⟨rfl, hclosed⟩ := hadvances.closed hstep
    exact ⟨hafter, hafter, hclosed⟩

theorem IsForward.beginning (hbody : body.IsForward setting count) (enclosure : Enclosure)
    (label : TableLabel) : (Procedure.beginning enclosure label body).IsAtomic setting count := by
  intro core hcore
  refine ⟨trivial, ?_⟩
  intro answer after hstep
  have hafter : after.Forward count := hstep.forward hcore (by simp)
  rw [hstep.eq_of_begin] at hafter ⊢
  exact ⟨hafter, hbody.closedAfter enclosure hafter⟩

/-- A result that is found has ended no earlier than here, and a rule that is open here yields
one that has failed. -/
theorem IsForward.consulting (hbody : body.IsForward setting count) (enclosure : Enclosure)
    {index : Nat} (hindex : index < count) (inner : Bool) :
    (Procedure.consulting enclosure index inner body).IsAtomic setting count := by
  intro core hcore
  refine ⟨Nat.lt_of_lt_of_le hindex hcore.count_le, ?_⟩
  intro answer after hstep
  have hafter : after.Forward count := hstep.forward hcore (by simp)
  refine ⟨hafter, ?_⟩
  cases hstep with
  | hit _ _ htable hlookup =>
      have hgood := (hcore.ledger.holds index _ htable).good_of_lookup hlookup
      exact .reuse enclosure.use hafter hgood
  | pending => exact .reuse enclosure.use hafter (by simp [Phrase.opened])
  | miss => exact hbody.closedAfter enclosure hafter
  | terminal _ hattempt => simp [Primitive.attempt?] at hattempt

end Procedure

/-! ## Grammars -/

/-- A table through which a phrase is opened exists. -/
def Opening.isCovered (grammar : Grammar) (opening : Opening) : Bool :=
  opening.table?.all (· < grammar.tables.length)

namespace Expression

mutual

/-- Every rule and every table that the expression refers to exists. -/
def isCovered (grammar : Grammar) : Expression → Bool
  | .terminal _ | .ahead _ | .aheadNot _ => true
  | .rule name => (grammar.rule? name).isSome
  | .choice alternatives => areCovered grammar alternatives
  | .optional body | .star body | .plus body => isCovered grammar body
  | .sequence opening parts => opening.isCovered grammar && areCovered grammar parts
  | .andPredicate opening argument | .notPredicate opening argument =>
      opening.isCovered grammar && isCovered grammar argument

def areCovered (grammar : Grammar) : List Expression → Bool
  | [] => true
  | expression :: rest => isCovered grammar expression && areCovered grammar rest

end

theorem areCovered_iff {grammar : Grammar} {expressions : List Expression} :
    areCovered grammar expressions = true ↔
      ∀ expression ∈ expressions, expression.isCovered grammar = true := by
  induction expressions with
  | nil => simp [areCovered]
  | cons expression rest ih => simp [areCovered, ih]

end Expression

namespace Grammar

/-- There is a root, and whatever the rules refer to exists. -/
def isComplete (grammar : Grammar) : Bool :=
  !grammar.rules.isEmpty &&
    grammar.rules.all fun rule =>
      rule.table.all (· < grammar.tables.length) && Expression.areCovered grammar rule.body

variable {grammar : Grammar}

theorem covered_of_rule? {name : String} {rule : Rule} (hgrammar : grammar.isComplete = true)
    (hrule : grammar.rule? name = some rule) :
    rule.table.all (· < grammar.tables.length) = true ∧
      ∀ part ∈ rule.body, part.isCovered grammar = true := by
  rw [isComplete, Bool.and_eq_true] at hgrammar
  have hcovered := List.all_eq_true.mp hgrammar.2 rule (List.mem_of_find?_eq_some hrule)
  rw [Bool.and_eq_true] at hcovered
  exact ⟨hcovered.1, Expression.areCovered_iff.mp hcovered.2⟩

theorem inside_isAtomic {opening : Opening} (hopening : opening.isCovered grammar = true)
    (enclosure : Enclosure) {body : Procedure Value}
    (hbody : body.IsForward setting grammar.tables.length) :
    (Procedure.inside opening enclosure body).IsAtomic setting grammar.tables.length := by
  cases opening with
  | plain diagnosis => exact hbody.beginning enclosure ⟨"", diagnosis⟩
  | memoized table => exact hbody.consulting enclosure (of_decide_eq_true hopening) true

theorem ofRule_isAtomic {rule : Rule}
    (htable : rule.table.all (· < grammar.tables.length) = true) {body : Procedure Value}
    (hbody : body.IsForward setting grammar.tables.length) :
    (Procedure.ofRule rule body).IsAtomic setting grammar.tables.length := by
  rw [Procedure.ofRule]
  cases hrule : rule.table with
  | none => exact hbody.beginning .rule ⟨rule.name, rule.diagnosis⟩
  | some table =>
      rw [hrule] at htable
      exact hbody.consulting .rule (of_decide_eq_true htable) false

/-- A repetition matches, however often. -/
theorem star_alwaysMatches (grammar : Grammar) (steps : Nat) (body : Expression) :
    (grammar.procedure steps (.star body) : Procedure Value).AlwaysMatches := by
  induction steps with
  | zero => trivial
  | succ steps ih => exact .round (grammar.procedure steps body) ih

/-- The induction is on the steps, since a rule leads to expressions that are no parts of it. -/
theorem procedure_isAtomic (hgrammar : grammar.isComplete = true) (steps : Nat)
    {expression : Expression} (hexpression : expression.isCovered grammar = true) :
    (grammar.procedure steps expression).IsAtomic setting grammar.tables.length := by
  induction steps generalizing expression with
  | zero => exact .exhausted
  | succ steps ih =>
      cases expression with
      | terminal | ahead | aheadNot => exact .terminal rfl
      | rule name =>
          obtain ⟨rule, hrule⟩ := Option.isSome_iff_exists.mp hexpression
          obtain ⟨htable, hparts⟩ := covered_of_rule? hgrammar hrule
          have hbody := Procedure.IsForward.all fun part hpart => ih (hparts part hpart)
          simp only [procedure, hrule]
          exact (ofRule_isAtomic htable hbody).remarked name
      | choice alternatives =>
          have halternatives := Expression.areCovered_iff.mp hexpression
          exact .any fun alternative hmember => ih (halternatives alternative hmember)
      | optional body =>
          have hcovered : body.isCovered grammar = true := hexpression
          exact (ih hcovered).isForward.optional
      | star body =>
          have hcovered : body.isCovered grammar = true := hexpression
          have hround := (ih hcovered).isForward.round (ih hexpression).isForward
          exact hround.isAtomic (.round _ (star_alwaysMatches grammar steps body))
      | plus body =>
          have hcovered : body.isCovered grammar = true := hexpression
          have hagain : (Expression.star body).isCovered grammar = true := hexpression
          rw [procedure]
          exact (ih hcovered).andThen (ih hagain).isForward
            (star_alwaysMatches grammar steps body) (.done false)
      | sequence opening parts =>
          obtain ⟨hopening, hparts⟩ := Bool.and_eq_true_iff.mp hexpression
          have hcovered := Expression.areCovered_iff.mp hparts
          have hbody := Procedure.IsForward.all fun part hpart => ih (hcovered part hpart)
          exact inside_isAtomic hopening .sequence hbody
      | andPredicate opening argument =>
          obtain ⟨hopening, hargument⟩ := Bool.and_eq_true_iff.mp hexpression
          exact inside_isAtomic hopening .andPredicate (ih hargument).isForward
      | notPredicate opening argument =>
          obtain ⟨hopening, hargument⟩ := Bool.and_eq_true_iff.mp hexpression
          exact inside_isAtomic hopening .notPredicate (ih hargument).isForward

theorem rootProcedure_isAtomic (hgrammar : grammar.isComplete = true) (steps : Nat) :
    (grammar.rootProcedure steps).IsAtomic setting grammar.tables.length := by
  rw [rootProcedure]
  cases hrules : grammar.rules with
  | nil => simp [isComplete, hrules] at hgrammar
  | cons rule rest =>
      apply procedure_isAtomic hgrammar
      simp [Expression.isCovered, rule?, hrules]

end Grammar

end Packrat
