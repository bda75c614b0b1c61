import Packrat.Proofs.Attempt

/-!
# The number of steps of an attempt

As for evaluations, more steps never change an attempt that ends.  So an attempt that
ends has one effect, and a least number of steps within which it ends.
-/

namespace Packrat

namespace Attempt

variable {Value : Type}

/-- Wherever `attempt` ends, `longer` ends in the same way. -/
def ExtendedBy (attempt longer : Attempt Value) : Prop :=
  ∀ position, attempt position ≠ .error .exhausted → longer position = attempt position

theorem ExtendedBy.refl (attempt : Attempt Value) : attempt.ExtendedBy attempt :=
  fun _ _ => rfl

theorem ExtendedBy.eq_ok {attempt longer : Attempt Value} {position : Nat}
    {effect : Effect Value} (hextended : attempt.ExtendedBy longer)
    (heffect : attempt position = .ok effect) : longer position = .ok effect := by
  rw [hextended position (by simp [heffect]), heffect]

theorem ExtendedBy.trans {short middle long : Attempt Value}
    (hshort : short.ExtendedBy middle) (hlong : middle.ExtendedBy long) :
    short.ExtendedBy long := by
  intro position hends
  have hmiddle := hshort position hends
  rw [hlong position (hmiddle ▸ hends), hmiddle]

theorem ExtendedBy.andThen {attempt longer : Attempt Value}
    {next longerNext : Bool → Attempt Value} (hattempt : attempt.ExtendedBy longer)
    (hnext : ∀ matched, (next matched).ExtendedBy (longerNext matched)) :
    (attempt.andThen next).ExtendedBy (longer.andThen longerNext) := by
  intro position hends
  have hagree := hattempt position
  simp only [Attempt.andThen] at hends ⊢
  cases hfirst : attempt position with
  | error halt =>
      cases halt with
      | exhausted => simp [hfirst] at hends
      | faulted fault place => rw [hagree (by simp [hfirst]), hfirst]
  | ok first =>
      rw [hfirst] at hagree hends
      rw [hagree (by simp)]
      have hrest := hnext first.matched first.stop
      simp only at hends ⊢
      cases hsecond : next first.matched first.stop with
      | error halt =>
          cases halt with
          | exhausted => simp [hsecond] at hends
          | faulted fault place => rw [hrest (by simp [hsecond]), hsecond]
      | ok second => rw [hrest (by simp [hsecond]), hsecond]

theorem ExtendedBy.ite {condition : Prop} [Decidable condition]
    {attempt longer other longerOther : Attempt Value}
    (hattempt : attempt.ExtendedBy longer) (hother : other.ExtendedBy longerOther) :
    (if condition then attempt else other).ExtendedBy
      (if condition then longer else longerOther) := by
  split
  · exact hattempt
  · exact hother

theorem ExtendedBy.all {Item : Type} {attempt longer : Item → Attempt Value}
    (hattempt : ∀ item, (attempt item).ExtendedBy (longer item)) (items : List Item) :
    (Attempt.all (items.map attempt)).ExtendedBy (Attempt.all (items.map longer)) := by
  induction items with
  | nil => exact .refl _
  | cons item rest ih => exact (hattempt item).andThen fun _ => .ite ih (.refl _)

theorem ExtendedBy.any {Item : Type} {attempt longer : Item → Attempt Value}
    (hattempt : ∀ item, (attempt item).ExtendedBy (longer item)) (items : List Item) :
    (Attempt.any (items.map attempt)).ExtendedBy (Attempt.any (items.map longer)) := by
  induction items with
  | nil => exact .refl _
  | cons item rest ih => exact (hattempt item).andThen fun _ => .ite (.refl _) ih

theorem ExtendedBy.ifAdvanced {attempt longer : Attempt Value}
    (hattempt : attempt.ExtendedBy longer) (start : Nat) :
    (Attempt.ifAdvanced start attempt).ExtendedBy (Attempt.ifAdvanced start longer) := by
  intro position hends
  simp only [Attempt.ifAdvanced] at hends ⊢
  by_cases hstill : position = start
  · simp only [hstill, if_true]
  · simp only [hstill, if_false] at hends ⊢
    exact hattempt position hends

theorem ExtendedBy.round {body longer again longerAgain : Attempt Value}
    (hbody : body.ExtendedBy longer) (hagain : again.ExtendedBy longerAgain) :
    (Attempt.round body again).ExtendedBy (Attempt.round longer longerAgain) := by
  intro start
  exact hbody.andThen (fun _ => .ite (hagain.ifAdvanced start) (.refl _)) start

variable {source : Source} {semantics : Semantics Value}

/-- An enclosed attempt keeps its body and its part when the body is allowed more. -/
theorem closed_extended {body longer : Attempt Value} (hbody : body.ExtendedBy longer)
    (enclosure : Enclosure) (label : TableLabel) {position : Nat}
    (hends : closed source semantics enclosure label body position ≠ .error .exhausted) :
    closed source semantics enclosure label longer position =
      closed source semantics enclosure label body position := by
  have hsame : longer position = body position := by
    apply hbody
    intro hexhausted
    exact hends (by simp only [closed, hexhausted])
  simp only [closed, hsame]

theorem ExtendedBy.within {body longer : Attempt Value} (hbody : body.ExtendedBy longer)
    (enclosure : Enclosure) (label? : Option TableLabel) :
    (Attempt.within source semantics enclosure label? body).ExtendedBy
      (Attempt.within source semantics enclosure label? longer) := by
  intro position hends
  cases label? with
  | none => rfl
  | some label =>
      simp only [Attempt.within] at hends ⊢
      rw [closed_extended hbody]
      intro hexhausted
      exact hends (by simp only [hexhausted])

end Attempt

namespace Grammar

variable {Value : Type} (grammar : Grammar) (source : Source) (semantics : Semantics Value)

theorem attempt_extendedBy_succ (steps : Nat) (expression : Expression) :
    (grammar.attempt source semantics steps expression).ExtendedBy
      (grammar.attempt source semantics (steps + 1) expression) := by
  induction steps generalizing expression with
  | zero =>
      intro position hends
      exact absurd rfl hends
  | succ steps ih =>
      cases expression with
      | terminal | ahead | aheadNot => exact .refl _
      | rule name =>
          rw [attempt, attempt]
          cases grammar.rule? name with
          | none => exact .refl _
          | some rule => exact .within (.all ih rule.body) .rule (grammar.ruleLabel? rule)
      | choice alternatives => exact .any ih alternatives
      | optional body => exact (ih body).andThen fun _ => .refl _
      | star body => exact .round (ih body) (ih (.star body))
      | plus body => exact (ih body).andThen fun _ => .ite (ih (.star body)) (.refl _)
      | sequence opening parts =>
          exact .within (.all ih parts) .sequence (grammar.innerLabel? opening)
      | andPredicate opening argument =>
          exact .within (ih argument) .andPredicate (grammar.innerLabel? opening)
      | notPredicate opening argument =>
          exact .within (ih argument) .notPredicate (grammar.innerLabel? opening)

/-- More steps never change what an attempt does, once it ends. -/
theorem attempt_extendedBy {steps more : Nat} (hsteps : steps ≤ more)
    (expression : Expression) :
    (grammar.attempt source semantics steps expression).ExtendedBy
      (grammar.attempt source semantics more expression) := by
  induction hsteps with
  | refl => exact .refl _
  | step _ ih => exact ih.trans (grammar.attempt_extendedBy_succ source semantics _ expression)

/-- An attempt that ends has one outcome, however many steps it was allowed. -/
theorem attempt_agree {steps more position : Nat} {expression : Expression}
    (hsteps : grammar.attempt source semantics steps expression position ≠
      .error .exhausted)
    (hmore : grammar.attempt source semantics more expression position ≠
      .error .exhausted) :
    grammar.attempt source semantics steps expression position =
      grammar.attempt source semantics more expression position := by
  rcases Nat.le_total steps more with hle | hle
  · exact (grammar.attempt_extendedBy source semantics hle expression position hsteps).symm
  · exact grammar.attempt_extendedBy source semantics hle expression position hmore

/-- An attempt that ends does so within a least number of steps, which is not zero. -/
theorem exists_least_attempt {steps : Nat} {expression : Expression} {position : Nat}
    (hends : grammar.attempt source semantics steps expression position ≠ .error .exhausted) :
    ∃ least < steps,
      grammar.attempt source semantics least expression position = .error .exhausted ∧
        grammar.attempt source semantics (least + 1) expression position =
          grammar.attempt source semantics steps expression position := by
  induction steps with
  | zero => exact absurd rfl hends
  | succ steps ih =>
      by_cases hearlier :
        grammar.attempt source semantics steps expression position = .error .exhausted
      · exact ⟨steps, Nat.lt_succ_self steps, hearlier, rfl⟩
      · obtain ⟨least, hleast, hbefore, hsame⟩ := ih hearlier
        refine ⟨least, Nat.lt_succ_of_lt hleast, hbefore, ?_⟩
        rw [hsame, grammar.attempt_extendedBy_succ source semantics steps expression position
          hearlier]

end Grammar

end Packrat
