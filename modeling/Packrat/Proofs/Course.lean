import Packrat.Proofs.PrimitiveSteps
import Packrat.Proofs.Procedure

/-!
# Courses of calls

A course is any succession of calls that finish, balanced or not, with notes taken at any
time.  However long it is, a phrase that none of its calls closes stays open where it was
opened, and everything around it stays as it was.
-/

namespace Packrat

variable {Value : Type} {setting : Setting Value}

/-- A primitive that finishes takes a step, with or without a result. -/
theorem Grammar.step_of_test {primitive : Primitive} {before after : Machine Value}
    {result : Bool} (htest : Grammar.test setting primitive before = .finished result after) :
    ∃ answer : Option Bool, answer.getD true = result ∧
      Core.Step setting primitive before.core answer after.core := by
  obtain ⟨answer, hperform, hanswer⟩ := Run.finished_of_map htest
  exact ⟨answer, hanswer, Machine.step_of_perform hperform⟩

/-- The calls that lead from one machine to another. -/
inductive Course (setting : Setting Value) :
    Machine Value → List (Call Value) → Machine Value → Prop where
  | done (machine : Machine Value) : Course setting machine [] machine
  | note {before after : Machine Value} {calls : List (Call Value)}
      (entry : JournalEntry Value) (hrest : Course setting (before.note entry) calls after) :
      Course setting before calls after
  | call {before between after : Machine Value} {primitive : Primitive} {result : Bool}
      {calls : List (Call Value)}
      (htest : Grammar.test setting primitive before = .finished result between)
      (hrest : Course setting between calls after) :
      Course setting before (⟨before, primitive, result, between⟩ :: calls) after

/-- What every call of a course keeps still holds in the end. -/
theorem Course.keeps {motive : Core Value → Prop} {before after : Machine Value}
    {calls : List (Call Value)} (hcourse : Course setting before calls after)
    (hkept : ∀ call ∈ calls, ∀ answer,
      Core.Step setting call.primitive call.before.core answer call.after.core →
        motive call.before.core → motive call.after.core)
    (hbefore : motive before.core) : motive after.core := by
  induction hcourse with
  | done => exact hbefore
  | note entry _ ih => exact ih hkept hbefore
  | call htest _ ih =>
      obtain ⟨hcall, hrest⟩ := List.forall_mem_cons.mp hkept
      obtain ⟨answer, _, hstep⟩ := Grammar.step_of_test htest
      exact ih hrest (hcall answer hstep hbefore)

namespace Procedure

/-- Performs primitives one after the other, whatever they answer. -/
def ofPrimitives : List Primitive → Procedure Value
  | [] => .done true
  | primitive :: rest => .perform primitive fun _ => ofPrimitives rest

/-- The calls of a procedure that finishes lead to where it finishes. -/
theorem course_of_finished {procedure : Procedure Value} {before after : Machine Value}
    {matched : Bool} (hfinished : procedure.run setting before = .finished matched after) :
    Course setting before (procedure.calls setting before) after := by
  induction procedure generalizing before with
  | done result =>
      obtain ⟨_, rfl⟩ := Outcome.finished.inj hfinished
      exact .done before
  | fault cause => contradiction
  | exhausted => contradiction
  | look view ih => exact ih before.position hfinished
  | note entry rest ih => exact .note entry (ih hfinished)
  | perform primitive rest ih =>
      simp only [run, Run.andThen] at hfinished
      cases htest : Grammar.test setting primitive before with
      | finished result between =>
          simp only [htest] at hfinished
          rw [calls_perform setting htest]
          exact .call htest (ih result hfinished)
      | faulted cause between => simp [htest] at hfinished
      | exhausted => simp [htest] at hfinished

end Procedure

/-! ## A phrase that stays open -/

/-- A call does not close the phrase that is open at a depth, nor one around it. -/
def Call.spares (depth : Nat) (call : Call Value) : Bool :=
  match call.primitive with
  | .close _ => depth < call.before.frames.length
  | _ => true

/-- What a phrase keeps while it is open. -/
structure Phrase.Continues (phrase opened : Phrase Value) : Prop where
  name_eq : phrase.name = opened.name
  diagnosis_eq : phrase.diagnosis = opened.diagnosis
  start_eq : phrase.start = opened.start

namespace Phrase.Continues

variable {phrase opened : Phrase Value}

theorem refl (phrase : Phrase Value) : phrase.Continues phrase :=
  ⟨rfl, rfl, rfl⟩

theorem absorb (hphrase : phrase.Continues opened) (use : PhraseUse) (part : Phrase Value)
    (cursor : Nat) : (phrase.absorb use part cursor).Continues opened := by
  cases hsuccess : part.success <;> cases use <;>
    simp only [Phrase.absorb, hsuccess] <;>
    exact ⟨hphrase.name_eq, hphrase.diagnosis_eq, hphrase.start_eq⟩

theorem applyTo (hphrase : phrase.Continues opened) (effect : Effect Value) :
    (effect.applyTo phrase).Continues opened :=
  ⟨hphrase.name_eq, hphrase.diagnosis_eq, hphrase.start_eq⟩

end Phrase.Continues

namespace Stack

/-- A phrase that was opened on the stack `base` is still open, with phrases inside it, and
everything around it is as it was. -/
inductive Over (base : Stack Value) (opened : Frame Value) : Stack Value → Prop where
  | intro (inner : List (Frame Value)) {phrase : Phrase Value}
      (hphrase : phrase.Continues opened.phrase) :
      Over base opened (base.1, inner ++ ⟨phrase, opened.ticket⟩ :: base.2)

variable {base : Stack Value} {opened frame : Frame Value} {outer : List (Frame Value)}
variable {stack : Stack Value} {top : Phrase Value}

theorem Over.begun (base : Stack Value) (opened : Frame Value) :
    Over base opened (base.1, opened :: base.2) :=
  .intro [] (.refl opened.phrase)

theorem Over.push (hover : Over base opened stack) (frame : Frame Value) :
    Over base opened (stack.1, frame :: stack.2) := by
  obtain ⟨inner, hphrase⟩ := hover
  exact .intro (frame :: inner) hphrase

/-- A phrase that is closed lies inside the one that stays open. -/
theorem Over.pop (hover : Over base opened (top, frame :: outer))
    (hinside : base.2.length < outer.length) : Over base opened (top, outer) := by
  generalize hstack : (top, frame :: outer) = stack at hover
  obtain ⟨inner, hphrase⟩ := hover
  obtain ⟨rfl, hframes⟩ := Prod.mk.inj hstack
  cases inner with
  | nil =>
      obtain ⟨_, rfl⟩ := List.cons.inj hframes
      exact absurd hinside (Nat.lt_irrefl _)
  | cons innermost inner =>
      obtain ⟨_, rfl⟩ := List.cons.inj hframes
      exact .intro inner hphrase

/-- With nothing open inside it, the phrase that was opened is the innermost one. -/
theorem Over.eq_of_length (hover : Over base opened stack)
    (hlength : stack.2.length = base.2.length + 1) :
    ∃ phrase : Phrase Value, phrase.Continues opened.phrase ∧
      stack = (base.1, ⟨phrase, opened.ticket⟩ :: base.2) := by
  obtain ⟨inner, hphrase⟩ := hover
  have hinner : inner = [] := by
    apply List.eq_nil_of_length_eq_zero
    simp only [List.length_append, List.length_cons] at hlength
    omega
  subst hinner
  exact ⟨_, hphrase, rfl⟩

theorem Over.changeInnermost (hover : Over base opened stack)
    {change : Phrase Value → Phrase Value}
    (hchange : ∀ phrase, phrase.Continues opened.phrase →
      (change phrase).Continues opened.phrase) :
    Over base opened (stack.changeInnermost change) := by
  obtain ⟨inner, hphrase⟩ := hover
  cases inner with
  | nil => exact .intro [] (hchange _ hphrase)
  | cons innermost inner =>
      exact .intro ({ innermost with phrase := change innermost.phrase } :: inner) hphrase

end Stack

/-- A step that does not close an open phrase leaves it open. -/
theorem Core.Step.over {primitive : Primitive} {before after : Core Value}
    {answer : Option Bool} {base : Stack Value} {opened : Frame Value}
    (hstep : Core.Step setting primitive before answer after)
    (hover : Stack.Over base opened before.stack)
    (hspared : ∀ closing, primitive = .close closing →
      base.2.length + 1 < before.stack.2.length) :
    Stack.Over base opened after.stack := by
  cases hstep with
  | addTable | hit | pending => exact hover
  | begin | miss => exact hover.push _
  | close _ hframes hpart =>
      have hdeep := hspared _ rfl
      rw [hframes, List.length_cons] at hdeep
      have hpopped : Stack.Over base opened (before.stack.1, _) :=
        Stack.Over.pop (by rw [← hframes]; exact hover) (Nat.lt_of_succ_lt_succ hdeep)
      exact hpopped.changeInnermost fun _ hphrase => hphrase.absorb _ _ _
  | terminal => exact hover.changeInnermost fun _ hphrase => hphrase.applyTo _
  | reuse => exact hover.changeInnermost fun _ hphrase => hphrase.absorb _ _ _

/-- A phrase that no call closes stays open throughout. -/
theorem Course.over {before after : Machine Value} {calls : List (Call Value)}
    {base : Stack Value} {opened : Frame Value} (hcourse : Course setting before calls after)
    (hspared : ∀ call ∈ calls, call.spares (base.2.length + 1) = true)
    (hover : Stack.Over base opened before.core.stack) :
    Stack.Over base opened after.core.stack := by
  apply hcourse.keeps (motive := fun core => Stack.Over base opened core.stack) ?_ hover
  intro call hcall answer hstep hbefore
  apply hstep.over hbefore
  intro closing hclosing
  have hspare := hspared call hcall
  simp only [Call.spares, hclosing] at hspare
  exact of_decide_eq_true hspare

end Packrat
