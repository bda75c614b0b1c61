import Packrat.Proofs.Course

/-!
# Isolation of predicates

The argument of a predicate runs inside an inner phrase of its own.  Whatever runs there,
closing the phrase as a predicate brings the cursor back and throws away what lies in the
phrase.  A predicate that fails leaves its own label behind, and nothing else gets out.
-/

namespace Packrat

variable {Value : Type} {setting : Setting Value}

/-- A phrase in which a predicate has been reported at the cursor, if it is to be. -/
def Phrase.reporting (reported : Option String) (cursor : Nat) (phrase : Phrase Value) :
    Phrase Value :=
  match reported with
  | none => phrase
  | some label =>
      { phrase with failure := phrase.failure.merge (.single label cursor) cursor }

namespace Closing

variable {closing : Closing}

theorem succeeds_iff_reported_eq_none (hclosing : closing.use = .predicate)
    (diagnosis : String) :
    closing.succeeds = true ↔ closing.reported diagnosis = none := by
  cases closing <;> simp_all [use, succeeds, reported]

/-- A predicate is closed without any action, on the spot where it was opened. -/
theorem settled?_of_predicate (hclosing : closing.use = .predicate) (source : Source)
    (semantics : Semantics Value) (cursor : Nat) (phrase : Phrase Value) :
    ∃ part, closing.settled? source semantics cursor phrase = .ok part ∧
      part.stop = phrase.start ∧ part.success = closing.succeeds ∧
        ∀ label, closing.reported phrase.diagnosis = some label →
          part.failure = .single label phrase.start := by
  cases closing with
  | accept | acceptInner | reject | rejectInner => simp [use] at hclosing
  | acceptAnd | acceptNot =>
      refine ⟨_, rfl, rfl, rfl, ?_⟩
      intro label hlabel
      simp [reported] at hlabel
  | rejectAnd | rejectNot =>
      refine ⟨_, rfl, rfl, rfl, ?_⟩
      rintro label ⟨⟩
      rfl

/-- All that the phrase around a closed predicate takes over is the label. -/
theorem absorb_predicate {part : Phrase Value} {diagnosis : String} {cursor : Nat}
    (hclosing : closing.use = .predicate) (hsuccess : part.success = closing.succeeds)
    (hfailure : ∀ label, closing.reported diagnosis = some label →
      part.failure = .single label cursor) (phrase : Phrase Value) :
    phrase.absorb closing.use part cursor =
      phrase.reporting (closing.reported diagnosis) cursor := by
  have hreported := succeeds_iff_reported_eq_none hclosing diagnosis
  rw [← hsuccess] at hreported
  cases hlabel : closing.reported diagnosis with
  | none => simp only [Phrase.absorb, hreported.mpr hlabel, hclosing, Phrase.reporting, if_true]
  | some label =>
      have hfailed : ¬part.success = true := by simp [hreported, hlabel]
      simp only [Phrase.absorb, if_neg hfailed, Phrase.inheritFailure, Phrase.reporting,
        hfailure label hlabel]

end Closing

namespace Machine

/-- An inner phrase with the given diagnosis is opened, plainly or because a memo table has
no result for it. -/
inductive OpensInner (setting : Setting Value) (before : Machine Value) (diagnosis : String)
    (opened : Machine Value) : Prop where
  | begin (hperform : perform setting (.begin "" diagnosis) before = .finished none opened)
  | miss {index : Nat} {table : MemoTable Value}
      (htable : before.tables[index]? = some table) (hdiagnosis : table.diagnosis = diagnosis)
      (hperform : perform setting (.consult index true) before = .finished (some false) opened)

variable {before opened later after : Machine Value} {diagnosis : String} {closing : Closing}
variable {calls : List (Call Value)}

/-- The phrase that has been opened lies on the stack as it was before. -/
theorem OpensInner.stack_eq (hopens : OpensInner setting before diagnosis opened) :
    ∃ ticket, opened.core.stack =
      (before.top, ⟨.opened "" diagnosis before.position, ticket⟩ :: before.frames) := by
  cases hopens with
  | begin hperform =>
      rw [(step_of_perform hperform).eq_of_begin]
      exact ⟨none, rfl⟩
  | miss htable hdiagnosis hperform =>
      obtain ⟨table, hfound, _, hcore⟩ := (step_of_perform hperform).eq_of_miss
      obtain rfl := Option.some.inj (htable.symm.trans hfound)
      rw [hcore, ← hdiagnosis]
      exact ⟨_, rfl⟩

/-- Closing the phrase as a predicate, once it is the innermost one again. -/
theorem closed_of_predicate (hopens : OpensInner setting before diagnosis opened)
    (hcourse : Course setting opened calls later)
    (hspared : ∀ call ∈ calls, call.spares opened.frames.length = true)
    (hdepth : later.frames.length = opened.frames.length)
    (hclosing : closing.use = .predicate) :
    ∃ after, perform setting (.close closing) later = .finished (some closing.succeeds) after ∧
      after.position = before.position ∧
        (after.top, after.frames) =
          Stack.changeInnermost
            (·.reporting (closing.reported diagnosis) before.position)
            (before.top, before.frames) := by
  obtain ⟨ticket, hstack⟩ := hopens.stack_eq
  have hlength : opened.frames.length = before.frames.length + 1 :=
    congrArg (fun stack : Stack Value => stack.2.length) hstack
  rw [hlength] at hspared hdepth
  have hover : Stack.Over (before.top, before.frames)
      ⟨.opened "" diagnosis before.position, ticket⟩ later.core.stack := by
    apply hcourse.over hspared
    rw [hstack]
    exact .begun _ _
  obtain ⟨phrase, hphrase, hlater⟩ := hover.eq_of_length hdepth
  obtain ⟨htop, hframes⟩ := Prod.mk.inj hlater
  obtain ⟨part, hpart, hstop, hsuccess, hfailure⟩ :=
    Closing.settled?_of_predicate hclosing setting.source setting.semantics later.position phrase
  obtain ⟨after, hclose, hcore⟩ := close_of_settled hframes hpart
  have hstart : part.stop = before.position := hstop.trans hphrase.start_eq
  have hdiagnosis : phrase.diagnosis = diagnosis := hphrase.diagnosis_eq
  rw [hdiagnosis, ← hstop, hstart] at hfailure
  have habsorb : (fun outer : Phrase Value => outer.absorb closing.use part part.stop) =
      (·.reporting (closing.reported diagnosis) before.position) := by
    funext outer
    rw [hstart]
    exact Closing.absorb_predicate hclosing hsuccess hfailure outer
  have hafter := congrArg Core.stack hcore
  rw [habsorb, htop] at hafter
  exact ⟨after, Run.map_of_finished hclose some, (congrArg Core.position hcore).trans hstart,
    hafter⟩

/-- An inner phrase that is closed as a predicate leaves the cursor and the stack as they
were, but for the label of a failing predicate; and so would any other calls in its place. -/
theorem predicate_isolates (hopens : OpensInner setting before diagnosis opened)
    (hcourse : Course setting opened calls later)
    (hspared : ∀ call ∈ calls, call.spares opened.frames.length = true)
    (hdepth : later.frames.length = opened.frames.length)
    (hclosing : closing.use = .predicate) :
    ∃ after, perform setting (.close closing) later = .finished (some closing.succeeds) after ∧
      after.position = before.position ∧
      (match closing.reported diagnosis with
        | none => after.top = before.top ∧ after.frames = before.frames
        | some label =>
            (after.top, after.frames) =
              Stack.changeInnermost
                (fun phrase =>
                  { phrase with
                    failure :=
                      phrase.failure.merge (.single label before.position) before.position })
                (before.top, before.frames)) ∧
      ∀ {otherOpened otherLater : Machine Value} {otherCalls : List (Call Value)},
        OpensInner setting before diagnosis otherOpened →
        Course setting otherOpened otherCalls otherLater →
        (∀ call ∈ otherCalls, call.spares otherOpened.frames.length = true) →
        otherLater.frames.length = otherOpened.frames.length →
        ∃ otherAfter,
          perform setting (.close closing) otherLater =
              .finished (some closing.succeeds) otherAfter ∧
            otherAfter.position = after.position ∧ otherAfter.top = after.top ∧
              otherAfter.frames = after.frames := by
  obtain ⟨after, hclose, hposition, hstack⟩ :=
    closed_of_predicate hopens hcourse hspared hdepth hclosing
  refine ⟨after, hclose, hposition, ?_, ?_⟩
  · cases hreported : closing.reported diagnosis with
    | none =>
        rw [hreported] at hstack
        exact Prod.mk.inj (hstack.trans (Stack.changeInnermost_of_forall_eq (fun _ => rfl) _))
    | some label =>
        rw [hreported] at hstack
        exact hstack
  · intro otherOpened otherLater otherCalls hother hcalls hotherSpared hotherDepth
    obtain ⟨otherAfter, hotherClose, hotherPosition, hotherStack⟩ :=
      closed_of_predicate hother hcalls hotherSpared hotherDepth hclosing
    obtain ⟨htop, hframes⟩ := Prod.mk.inj (hotherStack.trans hstack.symm)
    exact ⟨otherAfter, hotherClose, hotherPosition.trans hposition.symm, htop, hframes⟩

/-- The argument takes a letter and fails further on inside a rule of its own. -/
theorem predicate_isolates_letter :
    let setting : Setting Nat := ⟨.ofText "ab", .empty, ⟨1, by decide⟩⟩
    let before := Machine.initial.begin "word" "" none
    let opened := before.begin "" "a letter" none
    let body : Procedure Nat :=
      .ofPrimitives
        [.next (.character 'a'), .begin "inside" "", .next (.character 'c'), .close .reject]
    ∃ matched later after, body.run setting opened = .finished matched later ∧
      perform setting (.close .rejectNot) later = .finished (some false) after ∧
        after.position = 0 ∧
          (after.top, after.frames) =
            Stack.changeInnermost
              (fun phrase =>
                { phrase with failure := phrase.failure.merge (.single "not a letter" 0) 0 })
              (before.top, before.frames) := by
  intro setting before opened body
  have hopen : (body.run setting opened).FinishesWith fun _ later => later.frames.length = 2 := by
    decide +kernel
  obtain ⟨matched, later, hrun, hdepth⟩ := hopen.exists_eq
  have hspared : ∀ call ∈ body.calls setting opened, call.spares 2 = true := by decide +kernel
  have hopens : OpensInner setting before "a letter" opened := .begin rfl
  have hclosing : Closing.rejectNot.use = .predicate := rfl
  obtain ⟨after, hclose, hposition, hstack, _⟩ :=
    predicate_isolates hopens (Procedure.course_of_finished hrun) hspared hdepth hclosing
  exact ⟨matched, later, after, hrun, hclose, hposition, hstack⟩

end Machine

end Packrat
