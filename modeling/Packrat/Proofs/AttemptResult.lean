import Packrat.Proofs.AttemptSteps

/-!
# The result of an attempt

Seen from outside, an attempt matches up to where it leaves the cursor, or it fails.
An attempt that fails has put the cursor back where it began; this is what makes ordered
choice sound.
-/

namespace Packrat

variable {Value : Type}

namespace Effect

/-- The end of what was matched, unless it failed. -/
def result (effect : Effect Value) : Option Nat :=
  if effect.matched then some effect.stop else none

theorem result_eq_some {effect : Effect Value} (hmatched : effect.matched = true) :
    effect.result = some effect.stop := by
  rw [result, hmatched, if_pos rfl]

theorem result_eq_none {effect : Effect Value} (hfailed : effect.matched = false) :
    effect.result = none := by
  rw [result, hfailed, if_neg Bool.false_ne_true]

theorem result_eq_some_iff {effect : Effect Value} {stop : Nat} :
    effect.result = some stop ↔ effect.matched = true ∧ effect.stop = stop := by
  cases hmatched : effect.matched <;> simp [result, hmatched]

theorem result_eq_none_iff {effect : Effect Value} :
    effect.result = none ↔ effect.matched = false := by
  cases hmatched : effect.matched <;> simp [result, hmatched]

theorem result_followedBy (first second : Effect Value) :
    (first.followedBy second).result = second.result := rfl

end Effect

namespace Enclosure

variable {source : Source} {semantics : Semantics Value} {label : TableLabel}
variable {enclosure : Enclosure} {start : Nat} {inside : Effect Value}
variable {part : Phrase Value}

theorem success_of_part?
    (hpart : enclosure.part? source semantics label start inside = .ok part) :
    part.success = (enclosure.closing inside.matched).succeeds :=
  Closing.success_of_settled? hpart

theorem stop_of_part?
    (hpart : enclosure.part? source semantics label start inside = .ok part) :
    part.stop = if (enclosure.closing inside.matched).consumes then inside.stop else start :=
  congrArg Phrase.stop (Closing.eq_of_settled? hpart)

/-- What an enclosed body comes to. -/
def result (enclosure : Enclosure) (start : Nat) (inside : Option Nat) : Option Nat :=
  match enclosure with
  | .rule | .sequence => inside
  | .andPredicate => inside.map fun _ => start
  | .notPredicate => if inside.isSome then none else some start

theorem result_ofPart
    (hpart : enclosure.part? source semantics label start inside = .ok part)
    (visits : List Visit) :
    (Effect.ofPart enclosure.use part visits).result =
      enclosure.result start inside.result := by
  rw [Effect.result, Effect.matched_ofPart, Effect.stop_ofPart, success_of_part? hpart,
    stop_of_part? hpart]
  cases hmatched : inside.matched <;> cases enclosure <;>
    simp [result, Effect.result, hmatched, closing, Closing.succeeds, Closing.consumes]

end Enclosure

namespace Attempt

/-- An attempt that fails has put the cursor back. -/
def Restores (attempt : Attempt Value) : Prop :=
  ∀ position effect, attempt position = .ok effect → effect.matched = false →
    effect.stop = position

variable {source : Source} {semantics : Semantics Value} {attempt : Attempt Value}

theorem Restores.done (matched : Bool) : (done matched : Attempt Value).Restores := by
  intro position effect heffect _
  rw [← Except.ok.inj heffect]
  rfl

theorem Restores.fault (fault : Fault) :
    (Attempt.fault fault : Attempt Value).Restores := by
  intro position effect heffect
  simp [Attempt.fault] at heffect

theorem Restores.ahead (source : Source) (terminal : Terminal) :
    (ahead source terminal : Attempt Value).Restores := by
  intro position effect heffect _
  rw [ahead_eq_ok] at heffect
  rw [← Except.ok.inj heffect]
  cases terminal.matchLength? source position <;> rfl

theorem Restores.aheadNot (source : Source) (terminal : Terminal) :
    (aheadNot source terminal : Attempt Value).Restores := by
  intro position effect heffect _
  rw [aheadNot_eq_ok] at heffect
  rw [← Except.ok.inj heffect]
  cases terminal.matchLength? source position <;> rfl

theorem Restores.next (source : Source) (terminal : Terminal) :
    (next source terminal : Attempt Value).Restores := by
  intro position effect heffect hfailed
  rw [next_eq_ok] at heffect
  obtain rfl := Except.ok.inj heffect
  cases hmatch : terminal.matchLength? source position with
  | none => simp [Effect.failing]
  | some length =>
      simp only [hmatch] at hfailed ⊢
      by_cases hend : terminal = .endOfText
      · rw [if_pos hend]
        rfl
      · rw [if_neg hend] at hfailed
        contradiction

theorem Restores.any {Item : Type} {attempt : Item → Attempt Value} {items : List Item}
    (hattempt : ∀ item ∈ items, (attempt item).Restores) :
    (Attempt.any (items.map attempt)).Restores := by
  induction items with
  | nil => exact .done false
  | cons item rest ih =>
      have hrest := ih fun other hother => hattempt other (List.mem_cons_of_mem item hother)
      intro position effect heffect hfailed
      obtain ⟨first, second, hfirst, hsecond, rfl⟩ := andThen_eq_ok_iff.mp heffect
      cases hmatched : first.matched with
      | true =>
          rw [hmatched, if_pos rfl] at hsecond
          rw [← Except.ok.inj hsecond] at hfailed
          contradiction
      | false =>
          rw [hmatched, if_neg Bool.false_ne_true] at hsecond
          have hback := hattempt item List.mem_cons_self position first hfirst hmatched
          exact (hrest first.stop second hsecond hfailed).trans hback

/-- Whatever is enclosed, a failing phrase ends where it began. -/
theorem Restores.within (enclosure : Enclosure) (label? : Option TableLabel)
    (body : Attempt Value) :
    (within source semantics enclosure label? body).Restores := by
  intro position effect heffect hfailed
  obtain ⟨label, inside, part, _, _, hpart, rfl⟩ := within_eq_ok_iff.mp heffect
  rw [Effect.matched_ofPart, Enclosure.success_of_part? hpart] at hfailed
  rw [Effect.stop_ofPart, Enclosure.stop_of_part? hpart, enclosure.consumes_closing, hfailed]
  rfl

end Attempt

namespace Grammar

variable (grammar : Grammar) (source : Source) (semantics : Semantics Value)

/-- A repetition never fails. -/
theorem matched_of_attempt_star {steps position : Nat} {body : Expression}
    {effect : Effect Value}
    (heffect : grammar.attempt source semantics steps (.star body) position = .ok effect) :
    effect.matched = true := by
  induction steps generalizing position effect with
  | zero => contradiction
  | succ steps ih =>
      obtain ⟨first, second, _, rfl, hsecond⟩ := Attempt.round_eq_ok_iff.mp heffect
      split at hsecond
      · have hagain := ih hsecond
        exact hagain
      · rw [hsecond]
        rfl

theorem attempt_restores (steps : Nat) (expression : Expression) :
    (grammar.attempt source semantics steps expression).Restores := by
  induction steps generalizing expression with
  | zero =>
      intro position effect heffect
      contradiction
  | succ steps ih =>
      cases expression with
      | terminal terminal => exact .next source terminal
      | ahead terminal => exact .ahead source terminal
      | aheadNot terminal => exact .aheadNot source terminal
      | rule name =>
          rw [attempt]
          cases grammar.rule? name with
          | none => exact .fault .outOfRange
          | some rule => exact .within .rule (grammar.ruleLabel? rule) _
      | choice alternatives => exact .any fun alternative _ => ih alternative
      | optional body =>
          intro position effect heffect hfailed
          obtain ⟨first, second, _, hsecond, rfl⟩ := Attempt.andThen_eq_ok_iff.mp heffect
          rw [← Except.ok.inj hsecond] at hfailed
          contradiction
      | star body =>
          intro position effect heffect hfailed
          rw [grammar.matched_of_attempt_star source semantics heffect] at hfailed
          contradiction
      | plus body =>
          intro position effect heffect hfailed
          obtain ⟨first, second, hfirst, hsecond, rfl⟩ := Attempt.andThen_eq_ok_iff.mp heffect
          cases hmatched : first.matched with
          | true =>
              rw [hmatched, if_pos rfl] at hsecond
              have hmatches := grammar.matched_of_attempt_star source semantics hsecond
              simp [Effect.followedBy, hmatches] at hfailed
          | false =>
              rw [hmatched, if_neg Bool.false_ne_true] at hsecond
              rw [← Except.ok.inj hsecond]
              exact ih body position first hfirst hmatched
      | sequence opening parts => exact .within .sequence (grammar.innerLabel? opening) _
      | andPredicate opening argument =>
          exact .within .andPredicate (grammar.innerLabel? opening) _
      | notPredicate opening argument =>
          exact .within .notPredicate (grammar.innerLabel? opening) _

/-- The result tells where the cursor is left, also after a failure. -/
theorem getD_result_of_attempt {steps position : Nat} {expression : Expression}
    {effect : Effect Value}
    (heffect : grammar.attempt source semantics steps expression position = .ok effect) :
    effect.result.getD position = effect.stop := by
  cases hmatched : effect.matched with
  | true => rw [Effect.result_eq_some hmatched, Option.getD_some]
  | false =>
      rw [Effect.result_eq_none hmatched, Option.getD_none]
      exact (grammar.attempt_restores source semantics steps expression position effect
        heffect hmatched).symm

end Grammar

end Packrat
