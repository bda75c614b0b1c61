import Packrat.Proofs.AttemptResult
import Packrat.Proofs.TableUsers
import Packrat.Proofs.TerminalMeaning

/-!
# The big-step relation of parsing expressions

What an expression does at a position is given by rules of inference: it matches up to
some position, or it fails.  Phrases, failure records and tables have no part in that.
An attempt that ends is derivable, and what is derivable is attempted with that result
unless a table is missing or an action faults.
-/

namespace Packrat

variable {Value : Type}

namespace Grammar

mutual

/-- The expression matches from the position up to some stop, or fails there. -/
inductive Derives (grammar : Grammar) (source : Source) : Expression → Nat → Option Nat → Prop
  | terminal {terminal : Terminal} {position length : Nat}
      (htakes : terminal.Takes (source.rest position) length) :
      Derives grammar source (.terminal terminal) position (some (position + length))
  | terminalFails {terminal : Terminal} {position : Nat}
      (htakes : ∀ length, ¬ terminal.Takes (source.rest position) length) :
      Derives grammar source (.terminal terminal) position none
  | ahead {terminal : Terminal} {position length : Nat}
      (htakes : terminal.Takes (source.rest position) length) :
      Derives grammar source (.ahead terminal) position (some position)
  | aheadFails {terminal : Terminal} {position : Nat}
      (htakes : ∀ length, ¬ terminal.Takes (source.rest position) length) :
      Derives grammar source (.ahead terminal) position none
  | aheadNot {terminal : Terminal} {position : Nat}
      (htakes : ∀ length, ¬ terminal.Takes (source.rest position) length) :
      Derives grammar source (.aheadNot terminal) position (some position)
  | aheadNotFails {terminal : Terminal} {position length : Nat}
      (htakes : terminal.Takes (source.rest position) length) :
      Derives grammar source (.aheadNot terminal) position none
  | rule {name : String} {rule : Rule} {position : Nat} {result : Option Nat}
      (hrule : grammar.rule? name = some rule)
      (hbody : DerivesAll grammar source rule.body position result) :
      Derives grammar source (.rule name) position result
  | choice {alternatives : List Expression} {position : Nat} {result : Option Nat}
      (hany : DerivesAny grammar source alternatives position result) :
      Derives grammar source (.choice alternatives) position result
  | optional {body : Expression} {position : Nat} {result : Option Nat}
      (hbody : Derives grammar source body position result) :
      Derives grammar source (.optional body) position (some (result.getD position))
  | starEnds {body : Expression} {position : Nat}
      (hbody : Derives grammar source body position none) :
      Derives grammar source (.star body) position (some position)
  | starStalls {body : Expression} {position : Nat}
      (hbody : Derives grammar source body position (some position)) :
      Derives grammar source (.star body) position (some position)
  | starAdvances {body : Expression} {position middle : Nat} {result : Option Nat}
      (hbody : Derives grammar source body position (some middle))
      (hadvances : middle ≠ position)
      (hagain : Derives grammar source (.star body) middle result) :
      Derives grammar source (.star body) position result
  | plus {body : Expression} {position middle : Nat} {result : Option Nat}
      (hbody : Derives grammar source body position (some middle))
      (hagain : Derives grammar source (.star body) middle result) :
      Derives grammar source (.plus body) position result
  | plusFails {body : Expression} {position : Nat}
      (hbody : Derives grammar source body position none) :
      Derives grammar source (.plus body) position none
  | sequence {opening : Opening} {parts : List Expression} {position : Nat}
      {result : Option Nat} (hparts : DerivesAll grammar source parts position result) :
      Derives grammar source (.sequence opening parts) position result
  | andPredicate {opening : Opening} {argument : Expression} {position stop : Nat}
      (hargument : Derives grammar source argument position (some stop)) :
      Derives grammar source (.andPredicate opening argument) position (some position)
  | andPredicateFails {opening : Opening} {argument : Expression} {position : Nat}
      (hargument : Derives grammar source argument position none) :
      Derives grammar source (.andPredicate opening argument) position none
  | notPredicate {opening : Opening} {argument : Expression} {position : Nat}
      (hargument : Derives grammar source argument position none) :
      Derives grammar source (.notPredicate opening argument) position (some position)
  | notPredicateFails {opening : Opening} {argument : Expression} {position stop : Nat}
      (hargument : Derives grammar source argument position (some stop)) :
      Derives grammar source (.notPredicate opening argument) position none

/-- One expression after the other, until one fails. -/
inductive DerivesAll (grammar : Grammar) (source : Source) :
    List Expression → Nat → Option Nat → Prop
  | nil (position : Nat) : DerivesAll grammar source [] position (some position)
  | cons {first : Expression} {others : List Expression} {position middle : Nat}
      {result : Option Nat} (hfirst : Derives grammar source first position (some middle))
      (hothers : DerivesAll grammar source others middle result) :
      DerivesAll grammar source (first :: others) position result
  | fails {first : Expression} (others : List Expression) {position : Nat}
      (hfirst : Derives grammar source first position none) :
      DerivesAll grammar source (first :: others) position none

/-- The first expression that matches. -/
inductive DerivesAny (grammar : Grammar) (source : Source) :
    List Expression → Nat → Option Nat → Prop
  | nil (position : Nat) : DerivesAny grammar source [] position none
  | first {first : Expression} (others : List Expression) {position stop : Nat}
      (hfirst : Derives grammar source first position (some stop)) :
      DerivesAny grammar source (first :: others) position (some stop)
  | later {first : Expression} {others : List Expression} {position : Nat}
      {result : Option Nat} (hfirst : Derives grammar source first position none)
      (hothers : DerivesAny grammar source others position result) :
      DerivesAny grammar source (first :: others) position result

end

/-! ## What is attempted is derivable -/

variable {grammar : Grammar} {source : Source} {semantics : Semantics Value}
variable {position : Nat} {effect : Effect Value}

/-- The end of the text is matched without taking anything. -/
theorem length_of_endOfText {rest : List Char} {length : Nat}
    (htakes : Terminal.endOfText.Takes rest length) : length = 0 := by
  cases htakes
  rfl

theorem derives_terminal {terminal : Terminal}
    (heffect : Attempt.next source terminal position = .ok effect) :
    grammar.Derives source (.terminal terminal) position effect.result := by
  rw [Attempt.next_eq_ok] at heffect
  rw [← Except.ok.inj heffect]
  cases hmatch : terminal.matchLength? source position with
  | none => exact .terminalFails (Terminal.matchLength?_eq_none_iff.mp hmatch)
  | some length =>
      have htakes := Terminal.matchLength?_eq_some_iff.mp hmatch
      by_cases hend : terminal = .endOfText
      · subst hend
        obtain rfl := length_of_endOfText htakes
        simp only [if_true]
        exact .terminal htakes
      · simp only [if_neg hend]
        exact .terminal htakes

theorem derives_ahead {terminal : Terminal}
    (heffect : Attempt.ahead source terminal position = .ok effect) :
    grammar.Derives source (.ahead terminal) position effect.result := by
  rw [Attempt.ahead_eq_ok] at heffect
  rw [← Except.ok.inj heffect]
  cases hmatch : terminal.matchLength? source position with
  | none => exact .aheadFails (Terminal.matchLength?_eq_none_iff.mp hmatch)
  | some length => exact .ahead (Terminal.matchLength?_eq_some_iff.mp hmatch)

theorem derives_aheadNot {terminal : Terminal}
    (heffect : Attempt.aheadNot source terminal position = .ok effect) :
    grammar.Derives source (.aheadNot terminal) position effect.result := by
  rw [Attempt.aheadNot_eq_ok] at heffect
  rw [← Except.ok.inj heffect]
  cases hmatch : terminal.matchLength? source position with
  | none => exact .aheadNot (Terminal.matchLength?_eq_none_iff.mp hmatch)
  | some length => exact .aheadNotFails (Terminal.matchLength?_eq_some_iff.mp hmatch)

section Parts

variable {steps : Nat}
variable (hpart : ∀ {expression position effect},
  grammar.attempt source semantics steps expression position = .ok effect →
    grammar.Derives source expression position effect.result)

include hpart

theorem derivesAll_of_attempt {items : List Expression}
    (heffect : Attempt.all (items.map (grammar.attempt source semantics steps)) position =
      .ok effect) : grammar.DerivesAll source items position effect.result := by
  induction items generalizing position effect with
  | nil =>
      rw [← Except.ok.inj heffect]
      exact .nil position
  | cons item rest ih =>
      obtain ⟨first, second, hfirst, hsecond, rfl⟩ := Attempt.andThen_eq_ok_iff.mp heffect
      have hderives := hpart hfirst
      rw [Effect.result_followedBy]
      cases hmatched : first.matched with
      | true =>
          rw [hmatched, if_pos rfl] at hsecond
          rw [Effect.result_eq_some hmatched] at hderives
          exact .cons hderives (ih hsecond)
      | false =>
          rw [hmatched, if_neg Bool.false_ne_true] at hsecond
          rw [Effect.result_eq_none hmatched] at hderives
          rw [← Except.ok.inj hsecond]
          exact .fails rest hderives

theorem derivesAny_of_attempt {items : List Expression}
    (heffect : Attempt.any (items.map (grammar.attempt source semantics steps)) position =
      .ok effect) : grammar.DerivesAny source items position effect.result := by
  induction items generalizing position effect with
  | nil =>
      rw [← Except.ok.inj heffect]
      exact .nil position
  | cons item rest ih =>
      obtain ⟨first, second, hfirst, hsecond, rfl⟩ := Attempt.andThen_eq_ok_iff.mp heffect
      have hderives := hpart hfirst
      rw [Effect.result_followedBy]
      cases hmatched : first.matched with
      | true =>
          rw [hmatched, if_pos rfl] at hsecond
          rw [Effect.result_eq_some hmatched] at hderives
          rw [← Except.ok.inj hsecond]
          exact .first rest hderives
      | false =>
          rw [hmatched, if_neg Bool.false_ne_true] at hsecond
          rw [Effect.result_eq_none hmatched] at hderives
          have hback := grammar.attempt_restores source semantics steps item position first
            hfirst hmatched
          rw [hback] at hsecond
          exact .later hderives (ih hsecond)

theorem derives_optional {body : Expression}
    (heffect : grammar.attempt source semantics (steps + 1) (.optional body) position =
      .ok effect) : grammar.Derives source (.optional body) position effect.result := by
  obtain ⟨first, second, hfirst, hsecond, rfl⟩ := Attempt.andThen_eq_ok_iff.mp heffect
  have hoptional := Derives.optional (hpart hfirst)
  rw [grammar.getD_result_of_attempt source semantics hfirst] at hoptional
  rw [← Except.ok.inj hsecond]
  exact hoptional

/-- A repetition ends with a body that fails or stalls, and otherwise goes on. -/
theorem derives_star {body : Expression}
    (heffect : grammar.attempt source semantics (steps + 1) (.star body) position =
      .ok effect) : grammar.Derives source (.star body) position effect.result := by
  obtain ⟨first, second, hfirst, rfl, hsecond⟩ := Attempt.round_eq_ok_iff.mp heffect
  have hbody := hpart hfirst
  rw [Effect.result_followedBy]
  cases hmatched : first.matched with
  | false =>
      rw [Effect.result_eq_none hmatched] at hbody
      have hback := grammar.attempt_restores source semantics steps body position first
        hfirst hmatched
      simp only [hmatched, Bool.false_eq_true, false_and, if_false, hback] at hsecond
      rw [hsecond]
      exact .starEnds hbody
  | true =>
      rw [Effect.result_eq_some hmatched] at hbody
      by_cases hstill : first.stop = position
      · simp only [hstill, ne_eq, not_true, and_false, if_false] at hsecond hbody
        rw [hsecond]
        exact .starStalls hbody
      · rw [if_pos ⟨hmatched, hstill⟩] at hsecond
        exact .starAdvances hbody hstill (hpart hsecond)

theorem derives_plus {body : Expression}
    (heffect : grammar.attempt source semantics (steps + 1) (.plus body) position =
      .ok effect) : grammar.Derives source (.plus body) position effect.result := by
  obtain ⟨first, second, hfirst, hsecond, rfl⟩ := Attempt.andThen_eq_ok_iff.mp heffect
  have hbody := hpart hfirst
  rw [Effect.result_followedBy]
  cases hmatched : first.matched with
  | true =>
      rw [Effect.result_eq_some hmatched] at hbody
      rw [hmatched, if_pos rfl] at hsecond
      exact .plus hbody (hpart hsecond)
  | false =>
      rw [Effect.result_eq_none hmatched] at hbody
      rw [hmatched, if_neg Bool.false_ne_true] at hsecond
      rw [← Except.ok.inj hsecond]
      exact .plusFails hbody

end Parts

/-- An attempt that ends has the result that the relation gives. -/
theorem derives_of_attempt {steps : Nat} {expression : Expression}
    (heffect : grammar.attempt source semantics steps expression position = .ok effect) :
    grammar.Derives source expression position effect.result := by
  induction steps generalizing expression position effect with
  | zero => contradiction
  | succ steps ih =>
      cases expression with
      | terminal terminal => exact derives_terminal heffect
      | ahead terminal => exact derives_ahead heffect
      | aheadNot terminal => exact derives_aheadNot heffect
      | rule name =>
          rw [attempt] at heffect
          cases hrule : grammar.rule? name with
          | none => simp [hrule, Attempt.fault] at heffect
          | some rule =>
              simp only [hrule] at heffect
              obtain ⟨label, inside, part, _, hinside, hpart, rfl⟩ :=
                Attempt.within_eq_ok_iff.mp heffect
              rw [Enclosure.result_ofPart hpart]
              exact .rule hrule (derivesAll_of_attempt ih hinside)
      | choice alternatives => exact .choice (derivesAny_of_attempt ih heffect)
      | optional body => exact derives_optional ih heffect
      | star body => exact derives_star ih heffect
      | plus body => exact derives_plus ih heffect
      | sequence opening parts =>
          obtain ⟨label, inside, part, _, hinside, hpart, rfl⟩ :=
            Attempt.within_eq_ok_iff.mp heffect
          rw [Enclosure.result_ofPart hpart]
          exact .sequence (derivesAll_of_attempt ih hinside)
      | andPredicate opening argument =>
          obtain ⟨label, inside, part, _, hinside, hpart, rfl⟩ :=
            Attempt.within_eq_ok_iff.mp heffect
          have hargument := ih hinside
          rw [Enclosure.result_ofPart hpart]
          cases hresult : inside.result with
          | none => exact .andPredicateFails (hresult ▸ hargument)
          | some stop => exact .andPredicate (hresult ▸ hargument)
      | notPredicate opening argument =>
          obtain ⟨label, inside, part, _, hinside, hpart, rfl⟩ :=
            Attempt.within_eq_ok_iff.mp heffect
          have hargument := ih hinside
          rw [Enclosure.result_ofPart hpart]
          cases hresult : inside.result with
          | none => exact .notPredicate (hresult ▸ hargument)
          | some stop => exact .notPredicateFails (hresult ▸ hargument)

end Grammar

end Packrat
