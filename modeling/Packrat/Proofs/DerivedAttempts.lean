import Packrat.Proofs.Derivation
import Packrat.Proofs.Gists

/-!
# What is derivable is attempted

A derivation tells how many steps the attempt needs.  A table that is missing or an
action that faults would stop it, and nothing else would.
-/

namespace Packrat

variable {Value : Type}

namespace Grammar

/-- The phrase is an accepted one of the grammar, as an action gets to see it. -/
def Accepts (grammar : Grammar) (source : Source) (semantics : Semantics Value)
    (phrase : Phrase Value) : Prop :=
  ∃ rule ∈ grammar.rules, ∃ label steps position inside,
    grammar.ruleLabel? rule = some label ∧
      Attempt.all (rule.body.map (grammar.attempt source semantics steps)) position =
        .ok inside ∧
      inside.matched = true ∧
      phrase =
        { inside.applyTo (.opened label.name label.diagnosis position) with
          stop := inside.stop, success := true }

/-- No action faults on an accepted phrase of the grammar. -/
def ActionsAnswer (grammar : Grammar) (source : Source) (semantics : Semantics Value) :
    Prop :=
  ∀ phrase, grammar.Accepts source semantics phrase →
    ∀ action, semantics.action? phrase.name = some action →
      ∃ value, action source phrase = .ok value

/-- Actions that never fault need no grammar to answer. -/
theorem ActionsAnswer.of_forall {semantics : Semantics Value} (grammar : Grammar)
    (source : Source)
    (hactions : ∀ name action, semantics.action? name = some action →
      ∀ phrase, ∃ value, action source phrase = .ok value) :
    grammar.ActionsAnswer source semantics :=
  fun phrase _ action haction => hactions phrase.name action haction phrase

/-- Some number of steps is enough for the attempt to end with that result. -/
def Reaches (grammar : Grammar) (source : Source) (semantics : Semantics Value)
    (expression : Expression) (position : Nat) (result : Option Nat) : Prop :=
  ∃ steps effect,
    grammar.attempt source semantics steps expression position = .ok effect ∧
      effect.result = result

def ReachesAll (grammar : Grammar) (source : Source) (semantics : Semantics Value)
    (items : List Expression) (position : Nat) (result : Option Nat) : Prop :=
  ∃ steps effect,
    Attempt.all (items.map (grammar.attempt source semantics steps)) position =
        .ok effect ∧
      effect.result = result

def ReachesAny (grammar : Grammar) (source : Source) (semantics : Semantics Value)
    (items : List Expression) (position : Nat) (result : Option Nat) : Prop :=
  ∃ steps effect,
    Attempt.any (items.map (grammar.attempt source semantics steps)) position =
        .ok effect ∧
      effect.result = result

variable {grammar : Grammar} {source : Source} {semantics : Semantics Value}
variable {expression item body argument : Expression} {items others : List Expression}
variable {position middle stop : Nat} {result : Option Nat}

/-- The gist of an attempt tells what it comes to. -/
theorem reaches_iff_exists_gist :
    grammar.Reaches source semantics expression position result ↔
      ∃ gist, grammar.ComesTo source semantics expression position gist ∧
        gist.result = result :=
  Attempt.exists_result_iff

theorem reachesAll_iff_exists_gist :
    grammar.ReachesAll source semantics items position result ↔
      ∃ gist, grammar.AllComeTo source semantics items position gist ∧
        gist.result = result :=
  Attempt.exists_result_iff

theorem reachesAny_iff_exists_gist :
    grammar.ReachesAny source semantics items position result ↔
      ∃ gist, grammar.AnyComesTo source semantics items position gist ∧
        gist.result = result :=
  Attempt.exists_result_iff

theorem Reaches.terminal {terminal : Terminal} {length : Nat}
    (htakes : terminal.Takes (source.rest position) length) :
    grammar.Reaches source semantics (.terminal terminal) position
      (some (position + length)) := by
  have hmatch := Terminal.matchLength?_eq_some_iff.mpr htakes
  refine ⟨1, _, Attempt.next_eq_ok source terminal position, ?_⟩
  by_cases hend : terminal = .endOfText
  · subst hend
    obtain rfl := length_of_endOfText htakes
    simp only [hmatch, if_true]
    rfl
  · simp only [hmatch, if_neg hend]
    rfl

theorem Reaches.terminalFails {terminal : Terminal}
    (htakes : ∀ length, ¬ terminal.Takes (source.rest position) length) :
    grammar.Reaches source semantics (.terminal terminal) position none := by
  have hmatch := Terminal.matchLength?_eq_none_iff.mpr htakes
  refine ⟨1, _, Attempt.next_eq_ok source terminal position, ?_⟩
  rw [hmatch]
  rfl

theorem Reaches.ahead {terminal : Terminal} {length : Nat}
    (htakes : terminal.Takes (source.rest position) length) :
    grammar.Reaches source semantics (.ahead terminal) position (some position) := by
  have hmatch := Terminal.matchLength?_eq_some_iff.mpr htakes
  refine ⟨1, _, Attempt.ahead_eq_ok source terminal position, ?_⟩
  rw [hmatch]
  rfl

theorem Reaches.aheadFails {terminal : Terminal}
    (htakes : ∀ length, ¬ terminal.Takes (source.rest position) length) :
    grammar.Reaches source semantics (.ahead terminal) position none := by
  have hmatch := Terminal.matchLength?_eq_none_iff.mpr htakes
  refine ⟨1, _, Attempt.ahead_eq_ok source terminal position, ?_⟩
  rw [hmatch]
  rfl

theorem Reaches.aheadNot {terminal : Terminal}
    (htakes : ∀ length, ¬ terminal.Takes (source.rest position) length) :
    grammar.Reaches source semantics (.aheadNot terminal) position (some position) := by
  have hmatch := Terminal.matchLength?_eq_none_iff.mpr htakes
  refine ⟨1, _, Attempt.aheadNot_eq_ok source terminal position, ?_⟩
  rw [hmatch]
  rfl

theorem Reaches.aheadNotFails {terminal : Terminal} {length : Nat}
    (htakes : terminal.Takes (source.rest position) length) :
    grammar.Reaches source semantics (.aheadNot terminal) position none := by
  have hmatch := Terminal.matchLength?_eq_some_iff.mpr htakes
  refine ⟨1, _, Attempt.aheadNot_eq_ok source terminal position, ?_⟩
  rw [hmatch]
  rfl

/-! ## One after the other -/

theorem ReachesAll.cons
    (hfirst : grammar.Reaches source semantics item position (some middle))
    (hothers : grammar.ReachesAll source semantics others middle result) :
    grammar.ReachesAll source semantics (item :: others) position result := by
  obtain ⟨first, hitem, hmiddle⟩ := reaches_iff_exists_gist.mp hfirst
  obtain ⟨second, hrest, hresult⟩ := reachesAll_iff_exists_gist.mp hothers
  obtain ⟨hmatched, rfl⟩ := Gist.result_eq_some_iff.mp hmiddle
  exact reachesAll_iff_exists_gist.mpr ⟨_, .cons hitem hmatched hrest, hresult⟩

theorem ReachesAll.fails (others : List Expression)
    (hfirst : grammar.Reaches source semantics item position none) :
    grammar.ReachesAll source semantics (item :: others) position none := by
  obtain ⟨gist, hitem, hnone⟩ := reaches_iff_exists_gist.mp hfirst
  have hfailed := Gist.result_eq_none_iff.mp hnone
  exact reachesAll_iff_exists_gist.mpr ⟨gist, .fails others hitem hfailed, hnone⟩

theorem ReachesAny.first (others : List Expression)
    (hfirst : grammar.Reaches source semantics item position (some stop)) :
    grammar.ReachesAny source semantics (item :: others) position (some stop) := by
  obtain ⟨gist, hitem, hstop⟩ := reaches_iff_exists_gist.mp hfirst
  have hmatched := (Gist.result_eq_some_iff.mp hstop).1
  exact reachesAny_iff_exists_gist.mpr ⟨gist, .matches others hitem hmatched, hstop⟩

theorem ReachesAny.later
    (hfirst : grammar.Reaches source semantics item position none)
    (hothers : grammar.ReachesAny source semantics others position result) :
    grammar.ReachesAny source semantics (item :: others) position result := by
  obtain ⟨first, hitem, hnone⟩ := reaches_iff_exists_gist.mp hfirst
  obtain ⟨second, hrest, hresult⟩ := reachesAny_iff_exists_gist.mp hothers
  have hfailed := Gist.result_eq_none_iff.mp hnone
  rw [← hitem.stop_of_failed hfailed] at hrest
  exact reachesAny_iff_exists_gist.mpr ⟨_, .later hitem hfailed hrest, hresult⟩

/-! ## Repetitions and options -/

theorem Reaches.optional
    (hbody : grammar.Reaches source semantics body position result) :
    grammar.Reaches source semantics (.optional body) position
      (some (result.getD position)) := by
  obtain ⟨steps, effect, heffect, rfl⟩ := hbody
  refine ⟨steps + 1, effect.followedBy (.still true effect.stop), ?_, ?_⟩
  · apply Attempt.andThen_eq_ok_iff.mpr
    exact ⟨effect, _, heffect, rfl, rfl⟩
  · rw [Effect.result_followedBy]
    rw [grammar.getD_result_of_attempt source semantics heffect]
    rfl

/-- The last round of a repetition leaves the cursor where the round began. -/
theorem Reaches.starLast (hbody : grammar.Reaches source semantics body position result)
    (hlast : result = none ∨ result = some position) :
    grammar.Reaches source semantics (.star body) position (some position) := by
  obtain ⟨gist, hround, rfl⟩ := reaches_iff_exists_gist.mp hbody
  have hstop : gist.stop = position := by
    rcases hlast with hnone | hsome
    · exact hround.stop_of_failed (Gist.result_eq_none_iff.mp hnone)
    · exact (Gist.result_eq_some_iff.mp hsome).2
  exact reaches_iff_exists_gist.mpr ⟨_, hround.starEnds (.inr hstop), congrArg some hstop⟩

theorem Reaches.starAdvances
    (hbody : grammar.Reaches source semantics body position (some middle))
    (hadvances : middle ≠ position)
    (hagain : grammar.Reaches source semantics (.star body) middle result) :
    grammar.Reaches source semantics (.star body) position result := by
  obtain ⟨first, hround, hmiddle⟩ := reaches_iff_exists_gist.mp hbody
  obtain ⟨second, hrest, hresult⟩ := reaches_iff_exists_gist.mp hagain
  obtain ⟨hmatched, rfl⟩ := Gist.result_eq_some_iff.mp hmiddle
  exact reaches_iff_exists_gist.mpr
    ⟨_, hround.starAdvances hmatched hadvances hrest, hresult⟩

theorem Reaches.plus
    (hbody : grammar.Reaches source semantics body position (some middle))
    (hagain : grammar.Reaches source semantics (.star body) middle result) :
    grammar.Reaches source semantics (.plus body) position result := by
  obtain ⟨first, hround, hmiddle⟩ := reaches_iff_exists_gist.mp hbody
  obtain ⟨second, hrest, hresult⟩ := reaches_iff_exists_gist.mp hagain
  obtain ⟨hmatched, rfl⟩ := Gist.result_eq_some_iff.mp hmiddle
  exact reaches_iff_exists_gist.mpr ⟨_, hround.plus hmatched hrest, hresult⟩

theorem Reaches.plusFails
    (hbody : grammar.Reaches source semantics body position none) :
    grammar.Reaches source semantics (.plus body) position none := by
  obtain ⟨gist, hround, hnone⟩ := reaches_iff_exists_gist.mp hbody
  have hfailed := Gist.result_eq_none_iff.mp hnone
  exact reaches_iff_exists_gist.mpr ⟨gist, hround.plusFails hfailed, hnone⟩

/-! ## Phrases -/

/-- An enclosed body that ends is closed, unless it is that of a rule whose action
faults. -/
theorem within_of_body (semantics : Semantics Value) (enclosure : Enclosure)
    {label? : Option TableLabel} {label : TableLabel} {attempt : Attempt Value}
    {inside : Effect Value} (hlabel : label? = some label) (hinside : attempt position = .ok inside)
    (haction : enclosure = .rule → inside.matched = true →
      ∀ action, semantics.action? label.name = some action →
        ∃ value, action source
          { inside.applyTo (.opened label.name label.diagnosis position) with
            stop := inside.stop, success := true } = .ok value) :
    ∃ effect, Attempt.within source semantics enclosure label? attempt position =
        .ok effect ∧ effect.result = enclosure.result position inside.result := by
  obtain ⟨part, hpart⟩ : ∃ part,
      enclosure.part? source semantics label position inside = .ok part := by
    apply Closing.exists_settled
    intro haccept
    apply haction
    · cases enclosure <;> cases hmatched : inside.matched <;>
        simp_all [Enclosure.closing]
    · cases enclosure <;> cases hmatched : inside.matched <;>
        simp_all [Enclosure.closing]
  exact ⟨_, Attempt.within_eq_ok_iff.mpr ⟨label, inside, part, hlabel, hinside, hpart, rfl⟩,
    Enclosure.result_ofPart hpart _⟩

theorem Reaches.rule {name : String} {rule : Rule}
    (hgrammar : grammar.Provides grammar.users)
    (hactions : grammar.ActionsAnswer source semantics)
    (hrule : grammar.rule? name = some rule)
    (hbody : grammar.ReachesAll source semantics rule.body position result) :
    grammar.Reaches source semantics (.rule name) position result := by
  obtain ⟨steps, inside, hinside, rfl⟩ := hbody
  obtain ⟨label, hlabel⟩ :=
    exists_ruleLabel (hgrammar.mono (ruleUsers_subset_users hrule))
  obtain ⟨effect, heffect, hresult⟩ :=
    within_of_body semantics .rule hlabel hinside (by
      intro _ hmatched action haction
      exact hactions _ ⟨rule, List.mem_of_find?_eq_some hrule, label, steps, position,
        inside, hlabel, hinside, hmatched, rfl⟩ action haction)
  refine ⟨steps + 1, effect, ?_, hresult⟩
  simp only [attempt, hrule]
  exact heffect

theorem Reaches.sequence {opening : Opening}
    (husers : grammar.Provides (opening.user (.sequence opening items)))
    (hparts : grammar.ReachesAll source semantics items position result) :
    grammar.Reaches source semantics (.sequence opening items) position result := by
  obtain ⟨steps, inside, hinside, rfl⟩ := hparts
  obtain ⟨label, hlabel⟩ := exists_innerLabel husers
  obtain ⟨effect, heffect, hresult⟩ :=
    within_of_body semantics .sequence hlabel hinside nofun
  exact ⟨steps + 1, effect, heffect, hresult⟩

theorem Reaches.andPredicate {opening : Opening}
    (husers : grammar.Provides (opening.user (.andPredicate opening argument)))
    (hargument : grammar.Reaches source semantics argument position result) :
    grammar.Reaches source semantics (.andPredicate opening argument) position
      (result.map fun _ => position) := by
  obtain ⟨steps, inside, hinside, rfl⟩ := hargument
  obtain ⟨label, hlabel⟩ := exists_innerLabel husers
  obtain ⟨effect, heffect, hresult⟩ :=
    within_of_body semantics .andPredicate hlabel hinside nofun
  exact ⟨steps + 1, effect, heffect, hresult⟩

theorem Reaches.notPredicate {opening : Opening}
    (husers : grammar.Provides (opening.user (.notPredicate opening argument)))
    (hargument : grammar.Reaches source semantics argument position result) :
    grammar.Reaches source semantics (.notPredicate opening argument) position
      (if result.isSome then none else some position) := by
  obtain ⟨steps, inside, hinside, rfl⟩ := hargument
  obtain ⟨label, hlabel⟩ := exists_innerLabel husers
  obtain ⟨effect, heffect, hresult⟩ :=
    within_of_body semantics .notPredicate hlabel hinside nofun
  exact ⟨steps + 1, effect, heffect, hresult⟩

/-! ## Whole derivations -/

mutual

/-- What the relation derives, some number of steps attempts. -/
theorem reaches_of_derives {grammar : Grammar} {source : Source}
    {semantics : Semantics Value} (hgrammar : grammar.Provides grammar.users)
    (hactions : grammar.ActionsAnswer source semantics) :
    ∀ {expression : Expression} {position : Nat} {result : Option Nat},
      grammar.Derives source expression position result →
        grammar.Provides expression.users →
          grammar.Reaches source semantics expression position result
  | _, _, _, .terminal htakes, _ => .terminal htakes
  | _, _, _, .terminalFails htakes, _ => .terminalFails htakes
  | _, _, _, .ahead htakes, _ => .ahead htakes
  | _, _, _, .aheadFails htakes, _ => .aheadFails htakes
  | _, _, _, .aheadNot htakes, _ => .aheadNot htakes
  | _, _, _, .aheadNotFails htakes, _ => .aheadNotFails htakes
  | _, _, _, .rule hrule hbody, _ => by
      have hbodyUsers := hgrammar.mono (ruleUsers_subset_users hrule)
      exact .rule hgrammar hactions hrule
        (reachesAll_of_derives hgrammar hactions hbody
          (hbodyUsers.mono (List.subset_append_right _ _)))
  | _, _, _, .choice hany, husers => by
      obtain ⟨steps, effect, heffect, hresult⟩ :=
        reachesAny_of_derives hgrammar hactions hany husers
      exact ⟨steps + 1, effect, heffect, hresult⟩
  | _, _, _, .optional hbody, husers =>
      .optional (reaches_of_derives hgrammar hactions hbody husers)
  | _, _, _, .starEnds hbody, husers =>
      .starLast (reaches_of_derives hgrammar hactions hbody husers) (.inl rfl)
  | _, _, _, .starStalls hbody, husers =>
      .starLast (reaches_of_derives hgrammar hactions hbody husers) (.inr rfl)
  | _, _, _, .starAdvances hbody hadvances hagain, husers =>
      .starAdvances (reaches_of_derives hgrammar hactions hbody husers) hadvances
        (reaches_of_derives hgrammar hactions hagain husers)
  | _, _, _, .plus hbody hagain, husers =>
      .plus (reaches_of_derives hgrammar hactions hbody husers)
        (reaches_of_derives hgrammar hactions hagain husers)
  | _, _, _, .plusFails hbody, husers =>
      .plusFails (reaches_of_derives hgrammar hactions hbody husers)
  | _, _, _, .sequence hparts, husers =>
      .sequence (husers.mono (List.subset_append_left _ _))
        (reachesAll_of_derives hgrammar hactions hparts
          (husers.mono (List.subset_append_right _ _)))
  | _, _, _, .andPredicate hargument, husers =>
      .andPredicate (husers.mono (List.subset_append_left _ _))
        (reaches_of_derives hgrammar hactions hargument
          (husers.mono (List.subset_append_right _ _)))
  | _, _, _, .andPredicateFails hargument, husers =>
      .andPredicate (husers.mono (List.subset_append_left _ _))
        (reaches_of_derives hgrammar hactions hargument
          (husers.mono (List.subset_append_right _ _)))
  | _, _, _, .notPredicate hargument, husers =>
      .notPredicate (husers.mono (List.subset_append_left _ _))
        (reaches_of_derives hgrammar hactions hargument
          (husers.mono (List.subset_append_right _ _)))
  | _, _, _, .notPredicateFails hargument, husers =>
      .notPredicate (husers.mono (List.subset_append_left _ _))
        (reaches_of_derives hgrammar hactions hargument
          (husers.mono (List.subset_append_right _ _)))

theorem reachesAll_of_derives {grammar : Grammar} {source : Source}
    {semantics : Semantics Value} (hgrammar : grammar.Provides grammar.users)
    (hactions : grammar.ActionsAnswer source semantics) :
    ∀ {items : List Expression} {position : Nat} {result : Option Nat},
      grammar.DerivesAll source items position result →
        grammar.Provides (Expression.usersOfAll items) →
          grammar.ReachesAll source semantics items position result
  | _, _, _, .nil position, _ => ⟨0, .still true position, rfl, rfl⟩
  | _, _, _, .cons hfirst hothers, husers =>
      .cons
        (reaches_of_derives hgrammar hactions hfirst
          (husers.mono (List.subset_append_left _ _)))
        (reachesAll_of_derives hgrammar hactions hothers
          (husers.mono (List.subset_append_right _ _)))
  | _, _, _, .fails others hfirst, husers =>
      .fails others
        (reaches_of_derives hgrammar hactions hfirst
          (husers.mono (List.subset_append_left _ _)))

theorem reachesAny_of_derives {grammar : Grammar} {source : Source}
    {semantics : Semantics Value} (hgrammar : grammar.Provides grammar.users)
    (hactions : grammar.ActionsAnswer source semantics) :
    ∀ {items : List Expression} {position : Nat} {result : Option Nat},
      grammar.DerivesAny source items position result →
        grammar.Provides (Expression.usersOfAll items) →
          grammar.ReachesAny source semantics items position result
  | _, _, _, .nil position, _ => ⟨0, .still false position, rfl, rfl⟩
  | _, _, _, .first others hfirst, husers =>
      .first others
        (reaches_of_derives hgrammar hactions hfirst
          (husers.mono (List.subset_append_left _ _)))
  | _, _, _, .later hfirst hothers, husers =>
      .later
        (reaches_of_derives hgrammar hactions hfirst
          (husers.mono (List.subset_append_left _ _)))
        (reachesAny_of_derives hgrammar hactions hothers
          (husers.mono (List.subset_append_right _ _)))

end

/-- The relation describes exactly what attempts that end come to. -/
theorem reaches_iff_derives (hgrammar : grammar.Provides grammar.users)
    (hactions : grammar.ActionsAnswer source semantics)
    (husers : grammar.Provides expression.users) :
    grammar.Reaches source semantics expression position result ↔
      grammar.Derives source expression position result := by
  constructor
  · rintro ⟨steps, effect, heffect, rfl⟩
    exact derives_of_attempt heffect
  · intro hderives
    exact reaches_of_derives hgrammar hactions hderives husers

end Grammar

end Packrat
