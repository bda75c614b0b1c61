import Packrat.Proofs.ExplainedEffects
import Packrat.Proofs.Tiling

/-!
# The gist of an attempt

To follow a grammar by hand it is enough to know of each attempt whether it matches, where it
leaves the cursor, which parts it hands over, and how far its failures reach.  The gist of an
expression follows from those of the expressions that it consists of, however many steps each
of them takes.
-/

namespace Packrat

variable {Value : Type}

/-- An effect without its records. -/
structure Gist (Value : Type) where
  matched : Bool
  stop : Nat
  parts : List (Phrase Value)
  /-- How many positions the failures reach over. -/
  reach : Nat

namespace Gist

def still (matched : Bool) (position : Nat) : Gist Value :=
  ⟨matched, position, [], 0⟩

/-- A failure where it is attempted. -/
def failing (position : Nat) : Gist Value :=
  ⟨false, position, [], position + 1⟩

def taking (start stop : Nat) : Gist Value :=
  ⟨true, stop, [.ofTerminal start stop], 0⟩

/-- The end of what was matched, unless it failed. -/
def result (gist : Gist Value) : Option Nat :=
  if gist.matched then some gist.stop else none

def followedBy (first second : Gist Value) : Gist Value :=
  ⟨second.matched, second.stop, first.parts ++ second.parts, max first.reach second.reach⟩

theorem result_eq_some_iff {gist : Gist Value} {stop : Nat} :
    gist.result = some stop ↔ gist.matched = true ∧ gist.stop = stop := by
  cases hmatched : gist.matched <;> simp [result, hmatched]

theorem result_eq_none_iff {gist : Gist Value} :
    gist.result = none ↔ gist.matched = false := by
  cases hmatched : gist.matched <;> simp [result, hmatched]

theorem followedBy_still (gist : Gist Value) (matched : Bool) :
    gist.followedBy (.still matched gist.stop) = { gist with matched := matched } := by
  simp [followedBy, still]

theorem followedBy_same {gist : Gist Value} {matched : Bool} (hsame : gist.matched = matched) :
    gist.followedBy (.still matched gist.stop) = gist := by
  rw [followedBy_still, ← hsame]

end Gist

namespace Effect

def gist (effect : Effect Value) : Gist Value :=
  ⟨effect.matched, effect.stop, effect.parts, Failure.reachOf (Visit.failures effect.visits)⟩

theorem gist_followedBy (first second : Effect Value) :
    (first.followedBy second).gist = first.gist.followedBy second.gist := by
  rw [gist, followedBy, Visit.failures_append, Failure.reachOf_append]
  rfl

end Effect

namespace Enclosure

variable {source : Source} {semantics : Semantics Value} {enclosure : Enclosure}
variable {label : TableLabel} {start : Nat} {inside : Effect Value} {part : Phrase Value}

/-- A rule or a sequence has the failures of its body. -/
theorem gist_ofPart (huse : enclosure.use ≠ .predicate)
    (hpart : enclosure.part? source semantics label start inside = .ok part) :
    (Effect.ofPart enclosure.use part (enclosure.visits label start inside part)).gist =
      ⟨inside.matched, if inside.matched then inside.stop else start,
        part.handedOn enclosure.use, inside.gist.reach⟩ := by
  have hsuccess : part.success = inside.matched := by
    rw [success_of_part? hpart]
    cases inside.matched <;> cases enclosure <;> first | rfl | exact absurd rfl huse
  have hstop : part.stop = if inside.matched then inside.stop else start := by
    rw [stop_of_part? hpart]
    cases inside.matched <;> cases enclosure <;> first | rfl | exact absurd rfl huse
  have hparts : ∀ visits, (Effect.ofPart enclosure.use part visits).parts =
      part.handedOn enclosure.use := by
    intro visits
    cases hmatched : part.success <;> cases enclosure <;>
      simp [Effect.ofPart, Phrase.handedOn, hmatched, use]
  rw [Effect.gist, Effect.matched_ofPart, Effect.stop_ofPart, Effect.visits_ofPart, hparts,
    Effect.failures_visits_of_use label start inside part huse, hsuccess, hstop]
  rfl

end Enclosure

/-! ## Attempts that end -/

namespace Attempt

/-- More steps never change an attempt of the family that ends. -/
def Grows (family : Nat → Attempt Value) : Prop :=
  ∀ steps more, steps ≤ more → (family steps).ExtendedBy (family more)

/-- Some number of steps is enough to end with that gist. -/
def ComesTo (family : Nat → Attempt Value) (position : Nat) (gist : Gist Value) : Prop :=
  ∃ steps effect, family steps position = .ok effect ∧ effect.gist = gist

variable {family other : Nat → Attempt Value} {next : Nat → Bool → Attempt Value}
variable {position : Nat} {gist first second : Gist Value}

theorem ComesTo.done (matched : Bool) (position : Nat) :
    ComesTo (fun _ => (done matched : Attempt Value)) position (.still matched position) :=
  ⟨0, _, rfl, rfl⟩

/-- The gist tells the result. -/
theorem exists_result_iff {result : Option Nat} :
    (∃ steps effect, family steps position = .ok effect ∧ effect.result = result) ↔
      ∃ gist, ComesTo family position gist ∧ gist.result = result := by
  constructor
  · rintro ⟨steps, effect, heffect, hresult⟩
    exact ⟨effect.gist, ⟨steps, effect, heffect, rfl⟩, hresult⟩
  · rintro ⟨_, ⟨steps, effect, heffect, rfl⟩, hresult⟩
    exact ⟨steps, effect, heffect, hresult⟩

theorem ComesTo.of_succ (hcomes : ComesTo (fun steps => family (steps + 1)) position gist) :
    ComesTo family position gist := by
  obtain ⟨steps, effect, heffect, hgist⟩ := hcomes
  exact ⟨steps + 1, effect, heffect, hgist⟩

/-- What follows goes on from where the first attempt has left the cursor. -/
theorem ComesTo.andThen (hfamily : Grows family)
    (hnext : ∀ matched, Grows fun steps => next steps matched)
    (hfirst : ComesTo family position first)
    (hsecond : ComesTo (fun steps => next steps first.matched) first.stop second) :
    ComesTo (fun steps => (family steps).andThen (next steps)) position
      (first.followedBy second) := by
  obtain ⟨firstSteps, firstEffect, hfirst, rfl⟩ := hfirst
  obtain ⟨secondSteps, secondEffect, hsecond, rfl⟩ := hsecond
  have hfirstMore := hfamily _ _ (Nat.le_max_left firstSteps secondSteps)
  have hsecondMore := hnext firstEffect.matched _ _ (Nat.le_max_right firstSteps secondSteps)
  refine ⟨max firstSteps secondSteps, firstEffect.followedBy secondEffect, ?_,
    firstEffect.gist_followedBy secondEffect⟩
  apply andThen_eq_ok_iff.mpr
  exact ⟨firstEffect, secondEffect, hfirstMore.eq_ok hfirst, hsecondMore.eq_ok hsecond, rfl⟩

theorem Grows.const (attempt : Attempt Value) : Grows fun _ => attempt :=
  fun _ _ _ => .refl attempt

theorem Grows.ite (hfamily : Grows family) (hother : Grows other) (condition : Bool) :
    Grows fun steps => if condition then family steps else other steps :=
  fun steps more hsteps => .ite (hfamily steps more hsteps) (hother steps more hsteps)

section Branches

variable {yes no : Nat → Attempt Value}
variable (hfamily : Grows family) (hyes : Grows yes) (hno : Grows no)
include hfamily hyes hno

theorem ComesTo.thenMatched (hfirst : ComesTo family position first)
    (hmatched : first.matched = true) (hsecond : ComesTo yes first.stop second) :
    ComesTo (fun steps => (family steps).andThen fun matched =>
      if matched then yes steps else no steps) position (first.followedBy second) := by
  apply hfirst.andThen hfamily fun matched => hyes.ite hno matched
  simp only [hmatched, if_true]
  exact hsecond

theorem ComesTo.thenFailed (hfirst : ComesTo family position first)
    (hfailed : first.matched = false) (hsecond : ComesTo no first.stop second) :
    ComesTo (fun steps => (family steps).andThen fun matched =>
      if matched then yes steps else no steps) position (first.followedBy second) := by
  apply hfirst.andThen hfamily fun matched => hyes.ite hno matched
  simp only [hfailed, Bool.false_eq_true, if_false]
  exact hsecond

end Branches

end Attempt

namespace Grammar

variable {grammar : Grammar} {source : Source} {semantics : Semantics Value}
variable {item body : Expression} {items others : List Expression}
variable {position length : Nat} {terminal : Terminal} {gist first second : Gist Value}

theorem attempt_grows (grammar : Grammar) (source : Source) (semantics : Semantics Value)
    (expression : Expression) :
    Attempt.Grows fun steps => grammar.attempt source semantics steps expression :=
  fun _ _ hsteps => grammar.attempt_extendedBy source semantics hsteps expression

/-- Some number of steps is enough for the attempt to end with that gist. -/
def ComesTo (grammar : Grammar) (source : Source) (semantics : Semantics Value)
    (expression : Expression) : Nat → Gist Value → Prop :=
  Attempt.ComesTo fun steps => grammar.attempt source semantics steps expression

def AllComeTo (grammar : Grammar) (source : Source) (semantics : Semantics Value)
    (items : List Expression) : Nat → Gist Value → Prop :=
  Attempt.ComesTo fun steps => .all (items.map (grammar.attempt source semantics steps))

def AnyComesTo (grammar : Grammar) (source : Source) (semantics : Semantics Value)
    (items : List Expression) : Nat → Gist Value → Prop :=
  Attempt.ComesTo fun steps => .any (items.map (grammar.attempt source semantics steps))

/-- An attempt that fails has put the cursor back. -/
theorem ComesTo.stop_of_failed (hcomes : grammar.ComesTo source semantics item position gist)
    (hfailed : gist.matched = false) : gist.stop = position := by
  obtain ⟨steps, effect, heffect, rfl⟩ := hcomes
  exact grammar.attempt_restores source semantics steps item position effect heffect hfailed

/-! ## Terminals -/

theorem ComesTo.taking (htakes : terminal.Takes (source.rest position) length)
    (hend : terminal ≠ .endOfText) :
    grammar.ComesTo source semantics (.terminal terminal) position
      (.taking position (position + length)) := by
  have hmatch := Terminal.matchLength?_eq_some_iff.mpr htakes
  refine ⟨1, _, Attempt.next_eq_ok source terminal position, ?_⟩
  simp only [hmatch, if_neg hend]
  rfl

theorem ComesTo.endOfText (hrest : source.rest position = []) :
    grammar.ComesTo source semantics (.terminal .endOfText) position (.still true position) := by
  have htakes : Terminal.endOfText.Takes (source.rest position) 0 := hrest ▸ .endOfText
  have hmatch := Terminal.matchLength?_eq_some_iff.mpr htakes
  refine ⟨1, _, Attempt.next_eq_ok source .endOfText position, ?_⟩
  simp only [hmatch, if_true]
  rfl

theorem ComesTo.failing (htakes : ∀ length, ¬ terminal.Takes (source.rest position) length) :
    grammar.ComesTo source semantics (.terminal terminal) position (.failing position) := by
  have hmatch := Terminal.matchLength?_eq_none_iff.mpr htakes
  refine ⟨1, _, Attempt.next_eq_ok source terminal position, ?_⟩
  rw [hmatch]
  rfl

/-! ## Several expressions -/

theorem all_grows (grammar : Grammar) (source : Source) (semantics : Semantics Value)
    (items : List Expression) :
    Attempt.Grows fun steps => .all (items.map (grammar.attempt source semantics steps)) :=
  fun _ _ hsteps => .all (grammar.attempt_extendedBy source semantics hsteps) items

theorem any_grows (grammar : Grammar) (source : Source) (semantics : Semantics Value)
    (items : List Expression) :
    Attempt.Grows fun steps => .any (items.map (grammar.attempt source semantics steps)) :=
  fun _ _ hsteps => .any (grammar.attempt_extendedBy source semantics hsteps) items

theorem AllComeTo.nil (position : Nat) :
    grammar.AllComeTo source semantics [] position (.still true position) :=
  .done true position

theorem AllComeTo.cons (hfirst : grammar.ComesTo source semantics item position first)
    (hmatched : first.matched = true)
    (hothers : grammar.AllComeTo source semantics others first.stop second) :
    grammar.AllComeTo source semantics (item :: others) position (first.followedBy second) :=
  hfirst.thenMatched (grammar.attempt_grows source semantics item)
    (grammar.all_grows source semantics others) (.const _) hmatched hothers

theorem AllComeTo.fails (others : List Expression)
    (hfirst : grammar.ComesTo source semantics item position gist)
    (hfailed : gist.matched = false) :
    grammar.AllComeTo source semantics (item :: others) position gist := by
  rw [← Gist.followedBy_same hfailed]
  exact hfirst.thenFailed (grammar.attempt_grows source semantics item)
    (grammar.all_grows source semantics others) (.const _) hfailed (.done false gist.stop)

theorem AllComeTo.singleton (hitem : grammar.ComesTo source semantics item position gist)
    (hmatched : gist.matched = true) :
    grammar.AllComeTo source semantics [item] position gist := by
  have hall := AllComeTo.cons hitem hmatched (.nil gist.stop)
  rwa [Gist.followedBy_same hmatched] at hall

theorem AnyComesTo.nil (position : Nat) :
    grammar.AnyComesTo source semantics [] position (.still false position) :=
  .done false position

theorem AnyComesTo.matches (others : List Expression)
    (hfirst : grammar.ComesTo source semantics item position gist)
    (hmatched : gist.matched = true) :
    grammar.AnyComesTo source semantics (item :: others) position gist := by
  rw [← Gist.followedBy_same hmatched]
  exact hfirst.thenMatched (grammar.attempt_grows source semantics item) (.const _)
    (grammar.any_grows source semantics others) hmatched (.done true gist.stop)

theorem AnyComesTo.later (hfirst : grammar.ComesTo source semantics item position first)
    (hfailed : first.matched = false)
    (hothers : grammar.AnyComesTo source semantics others first.stop second) :
    grammar.AnyComesTo source semantics (item :: others) position (first.followedBy second) :=
  hfirst.thenFailed (grammar.attempt_grows source semantics item) (.const _)
    (grammar.any_grows source semantics others) hfailed hothers

theorem ComesTo.choice (hany : grammar.AnyComesTo source semantics items position gist) :
    grammar.ComesTo source semantics (.choice items) position gist :=
  .of_succ hany

/-! ## Repetitions -/

theorem again_grows (grammar : Grammar) (source : Source) (semantics : Semantics Value)
    (body : Expression) (start : Nat) :
    Attempt.Grows fun steps =>
      .ifAdvanced start (grammar.attempt source semantics steps (.star body)) :=
  fun _ _ hsteps =>
    (grammar.attempt_extendedBy source semantics hsteps (.star body)).ifAdvanced start

/-- The last round of a repetition fails, or leaves the cursor where it began. -/
theorem ComesTo.starEnds (hbody : grammar.ComesTo source semantics body position gist)
    (hlast : gist.matched = false ∨ gist.stop = position) :
    grammar.ComesTo source semantics (.star body) position { gist with matched := true } := by
  rw [← gist.followedBy_still true]
  apply Attempt.ComesTo.of_succ
  apply hbody.andThen (grammar.attempt_grows source semantics body)
    (Attempt.Grows.ite (grammar.again_grows source semantics body position) (.const _))
  refine ⟨0, .still true gist.stop, ?_, rfl⟩
  rcases hlast with hfailed | hstill
  · rw [hfailed]
    rfl
  · cases gist.matched <;> simp [Attempt.ifAdvanced, Attempt.done, hstill]

theorem ComesTo.starAdvances (hbody : grammar.ComesTo source semantics body position first)
    (hmatched : first.matched = true) (hadvances : first.stop ≠ position)
    (hagain : grammar.ComesTo source semantics (.star body) first.stop second) :
    grammar.ComesTo source semantics (.star body) position (first.followedBy second) := by
  apply Attempt.ComesTo.of_succ
  apply hbody.thenMatched (grammar.attempt_grows source semantics body)
    (grammar.again_grows source semantics body position) (.const _) hmatched
  obtain ⟨steps, effect, heffect, hgist⟩ := hagain
  refine ⟨steps, effect, ?_, hgist⟩
  simp only [Attempt.ifAdvanced, if_neg hadvances]
  exact heffect

theorem ComesTo.plus (hbody : grammar.ComesTo source semantics body position first)
    (hmatched : first.matched = true)
    (hagain : grammar.ComesTo source semantics (.star body) first.stop second) :
    grammar.ComesTo source semantics (.plus body) position (first.followedBy second) :=
  .of_succ (hbody.thenMatched (grammar.attempt_grows source semantics body)
    (grammar.attempt_grows source semantics (.star body)) (.const _) hmatched hagain)

theorem ComesTo.plusFails (hbody : grammar.ComesTo source semantics body position gist)
    (hfailed : gist.matched = false) :
    grammar.ComesTo source semantics (.plus body) position gist := by
  rw [← Gist.followedBy_same hfailed]
  apply Attempt.ComesTo.of_succ
  exact hbody.thenFailed (grammar.attempt_grows source semantics body)
    (grammar.attempt_grows source semantics (.star body)) (.const _) hfailed
    (.done false gist.stop)

/-! ## Phrases -/

variable {name : String} {found : Rule} {label : TableLabel} {opening : Opening}

theorem ComesTo.sequence_cases (hlabel : grammar.innerLabel? opening = some label)
    (hparts : grammar.AllComeTo source semantics items position gist) :
    grammar.ComesTo source semantics (.sequence opening items) position
      (if gist.matched then gist else ⟨false, position, [], gist.reach⟩) := by
  obtain ⟨steps, inside, hinside, rfl⟩ := hparts
  obtain ⟨part, hpart⟩ : ∃ part,
      Enclosure.sequence.part? source semantics label position inside = .ok part := by
    apply Closing.exists_settled
    intro haccept
    cases hmatched : inside.matched <;> simp [hmatched, Enclosure.closing] at haccept
  refine ⟨steps + 1, _, Attempt.within_eq_ok_iff.mpr
    ⟨label, inside, part, hlabel, hinside, hpart, rfl⟩, ?_⟩
  rw [Enclosure.gist_ofPart (by decide) hpart, Closing.eq_of_settled? hpart]
  cases hmatched : inside.matched <;> simp [Effect.gist, hmatched, Phrase.handedOn, Closing.settle,
    Enclosure.closing, Enclosure.use, Closing.succeeds, Effect.applyTo, Phrase.opened]

/-- A sequence hands over the parts of its body. -/
theorem ComesTo.sequence (hlabel : grammar.innerLabel? opening = some label)
    (hparts : grammar.AllComeTo source semantics items position gist)
    (hmatched : gist.matched = true) :
    grammar.ComesTo source semantics (.sequence opening items) position gist := by
  have hsequence := ComesTo.sequence_cases hlabel hparts
  rwa [if_pos hmatched] at hsequence

/-- A sequence whose body fails goes back. -/
theorem ComesTo.sequenceFails (hlabel : grammar.innerLabel? opening = some label)
    (hparts : grammar.AllComeTo source semantics items position gist)
    (hfailed : gist.matched = false) :
    grammar.ComesTo source semantics (.sequence opening items) position
      ⟨false, position, [], gist.reach⟩ := by
  have hsequence := ComesTo.sequence_cases hlabel hparts
  rwa [if_neg (hfailed ▸ Bool.false_ne_true)] at hsequence

/-- A rule whose body fails goes back. -/
theorem ComesTo.ruleFails (hrule : grammar.rule? name = some found)
    (hlabel : grammar.ruleLabel? found = some label)
    (hbody : grammar.AllComeTo source semantics found.body position gist)
    (hfailed : gist.matched = false) :
    grammar.ComesTo source semantics (.rule name) position
      ⟨false, position, [], gist.reach⟩ := by
  obtain ⟨steps, inside, hinside, rfl⟩ := hbody
  have hinsideFailed : inside.matched = false := hfailed
  obtain ⟨part, hpart⟩ : ∃ part,
      Enclosure.rule.part? source semantics label position inside = .ok part := by
    apply Closing.exists_settled
    intro haccept
    simp [hinsideFailed, Enclosure.closing] at haccept
  refine ⟨steps + 1, .ofPart .rule part (Enclosure.rule.visits label position inside part),
    ?_, ?_⟩
  · simp only [attempt, hrule]
    exact Attempt.within_eq_ok_iff.mpr ⟨label, inside, part, hlabel, hinside, hpart, rfl⟩
  · have hgist := Enclosure.gist_ofPart (by decide) hpart
    have hsuccess := Enclosure.success_of_part? hpart
    rw [hinsideFailed] at hgist hsuccess
    have hparts : part.handedOn Enclosure.rule.use = [] := by
      rw [Phrase.handedOn.eq_def, hsuccess]
      rfl
    rw [hparts] at hgist
    exact hgist

/-- A rule whose body matches hands over one phrase, with the value that its action puts on
it.  What the phrase has recorded is left open. -/
theorem ComesTo.rule {action : Action Value} {stop reach : Nat} {parts : List (Phrase Value)}
    {value : Value} (hrule : grammar.rule? name = some found)
    (hlabel : grammar.ruleLabel? found = some label)
    (haction : semantics.action? label.name = some action)
    (hbody : grammar.AllComeTo source semantics found.body position ⟨true, stop, parts, reach⟩)
    (hvalue : ∀ failure, action source ⟨label.name, label.diagnosis, position, stop, true, parts,
      none, failure⟩ = .ok (some value)) :
    ∃ failure, grammar.ComesTo source semantics (.rule name) position
      ⟨true, stop, [⟨label.name, label.diagnosis, position, stop, true, [], some value, failure⟩],
        reach⟩ := by
  obtain ⟨steps, inside, hinside, hgist⟩ := hbody
  obtain ⟨hmatched, hstop, hparts, hreach⟩ := Gist.mk.inj hgist
  let failure := Failure.empty.mergeAll inside.records
  let part : Phrase Value :=
    ⟨label.name, label.diagnosis, position, stop, true, [], some value, failure⟩
  have hpart : Enclosure.rule.part? source semantics label position inside = .ok part := by
    have hanswer := hvalue failure
    simp only [Enclosure.part?, hmatched, Enclosure.closing, if_true, Closing.settled?,
      Closing.value?, Effect.applyTo, Phrase.opened, haction, hstop, hparts, List.nil_append,
      failure] at hanswer ⊢
    rw [hanswer]
    rfl
  refine ⟨failure, steps + 1, .ofPart .rule part (Enclosure.rule.visits label position inside part),
    ?_, ?_⟩
  · simp only [attempt, hrule]
    exact Attempt.within_eq_ok_iff.mpr ⟨label, inside, part, hlabel, hinside, hpart, rfl⟩
  · have hwhole := Enclosure.gist_ofPart (by decide) hpart
    rw [hmatched, if_pos rfl, hstop] at hwhole
    rw [← hreach]
    exact hwhole

end Grammar

end Packrat
