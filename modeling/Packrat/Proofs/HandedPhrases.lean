import Packrat.Proofs.ProcedureLogic
import Packrat.Proofs.Reachable

/-!
# The phrases that actions are given

Actions run in one place only: where the innermost phrase is accepted.  What an action is given
is that phrase, ended at the cursor, and the journal keeps it whether the action faults or not.
So what an invariant says of the innermost phrase it says of everything that actions are given.
-/

namespace Packrat

variable {Value : Type} {setting : Setting Value}

def JournalEntry.handed? : JournalEntry Value → Option (Phrase Value)
  | .action phrase => some phrase
  | _ => none

/-- The phrase as its action sees it. -/
def Phrase.accepted (phrase : Phrase Value) (cursor : Nat) : Phrase Value :=
  { phrase with stop := cursor, success := true }

/-- A run that leads anywhere behind a conversion leads there before it. -/
theorem Outcome.leadsTo_of_map {Result Next : Type} {run : Run Value Result}
    {convert : Result → Next} {machine after : Machine Value}
    (hleads : (run.map convert machine).LeadsTo after) : (run machine).LeadsTo after := by
  simp only [Run.map, Run.andThen] at hleads
  cases hrun : run machine with
  | finished result between | faulted cause between =>
      rw [hrun] at hleads
      exact hleads
  | exhausted => simp [hrun, LeadsTo] at hleads

namespace Machine

/-- The phrases that actions have been given, the latest first. -/
def handed (machine : Machine Value) : List (Phrase Value) :=
  machine.journal.newestFirst.filterMap JournalEntry.handed?

variable {machine before after : Machine Value}

theorem mem_handed {phrase : Phrase Value} :
    phrase ∈ machine.handed ↔ .action phrase ∈ machine.journal.entries := by
  rw [handed, Journal.entries, List.mem_reverse, List.mem_filterMap]
  constructor
  · rintro ⟨entry, hentry, hphrase⟩
    cases entry with
    | action other =>
        obtain rfl := Option.some.inj hphrase
        exact hentry
    | event | step | rule | summary => contradiction
  · exact fun hphrase => ⟨_, hphrase, rfl⟩

/-! ## One primitive -/

theorem handed_note {entry : JournalEntry Value} (hentry : entry.handed? = none) :
    (machine.note entry).handed = machine.handed :=
  List.filterMap_cons_none hentry

theorem handed_begin (name diagnosis : String) (ticket : Option Ticket) :
    (machine.begin name diagnosis ticket).handed = machine.handed := rfl

theorem handed_changeCurrent (change : Phrase Value → Phrase Value) :
    (machine.changeCurrent change).handed = machine.handed := by
  cases hframes : machine.frames <;> simp only [changeCurrent, hframes] <;> rfl

theorem handed_fill (ticket : Option Ticket) (part : Phrase Value) :
    (machine.fill ticket part).handed = machine.handed := by
  cases ticket <;> rfl

theorem handed_noteClosed (phrase : Phrase Value) :
    (machine.noteClosed phrase).handed = machine.handed := by
  rw [noteClosed]
  split <;> rfl

theorem handed_fail (terminal : Terminal) : (machine.fail terminal).handed = machine.handed := by
  rw [fail]
  split
  · rfl
  · exact handed_changeCurrent _

theorem handed_valueAfter {closing : Closing} {phrase : Phrase Value}
    (hleads : (valueAfter setting closing phrase machine).LeadsTo after) :
    after.handed = machine.handed ∨
      after.handed = phrase.accepted machine.position :: machine.handed := by
  cases closing with
  | accept =>
      simp only [valueAfter, act] at hleads
      split at hleads
      · obtain rfl := hleads
        exact .inl rfl
      · split at hleads <;> obtain rfl := hleads <;> exact .inr rfl
  | _ =>
      obtain rfl := hleads
      exact .inl rfl

/-- Closing hands on the innermost phrase at most. -/
theorem handed_close {closing : Closing} (hleads : (close setting closing before).LeadsTo after) :
    after.handed = before.handed ∨ ∃ frame outer, before.frames = frame :: outer ∧
      after.handed = frame.phrase.accepted before.position :: before.handed := by
  cases hframes : before.frames with
  | nil =>
      rw [close_of_frames_eq_nil hframes] at hleads
      obtain rfl := hleads
      exact .inl rfl
  | cons frame outer =>
      have hpopped : ∀ popped : Machine Value,
          (valueAfter setting closing frame.phrase { before with frames := outer }).LeadsTo
            popped → popped.handed = before.handed ∨ ∃ inner rest,
              frame :: outer = inner :: rest ∧
                popped.handed = inner.phrase.accepted before.position :: before.handed :=
        fun popped hvalue => (handed_valueAfter hvalue).imp_right fun hhanded =>
          ⟨frame, outer, rfl, hhanded⟩
      simp only [close, hframes] at hleads
      cases hvalue : valueAfter setting closing frame.phrase { before with frames := outer } with
      | finished value popped =>
          rw [hvalue] at hpopped hleads
          obtain rfl := hleads
          rw [absorb, handed_changeCurrent, handed_fill, handed_noteClosed]
          exact hpopped popped rfl
      | faulted cause popped =>
          rw [hvalue] at hpopped hleads
          obtain rfl := hleads
          exact hpopped popped rfl
      | exhausted =>
          rw [hvalue] at hleads
          contradiction

theorem handed_of_terminal {primitive : Primitive} {attempt : Attempt Value}
    (hattempt : primitive.attempt? setting.source = some attempt)
    (hleads : (perform setting primitive before).LeadsTo after) :
    after.handed = before.handed := by
  cases primitive with
  | ahead terminal =>
      have hahead : (ahead setting terminal before).LeadsTo after :=
        Outcome.leadsTo_of_map hleads
      simp only [ahead] at hahead
      split at hahead <;> obtain rfl := hahead
      · rfl
      · exact handed_fail terminal
  | aheadNot terminal =>
      have hahead : (aheadNot setting terminal before).LeadsTo after :=
        Outcome.leadsTo_of_map hleads
      simp only [aheadNot] at hahead
      split at hahead <;> obtain rfl := hahead
      · exact handed_fail terminal.negate
      · rfl
  | next terminal =>
      have hnext : (next setting terminal before).LeadsTo after :=
        Outcome.leadsTo_of_map hleads
      simp only [next] at hnext
      split at hnext
      · simp only [ahead] at hnext
        split at hnext <;> obtain rfl := hnext
        · rfl
        · exact handed_fail terminal
      · dsimp only at hnext
        split at hnext <;> obtain rfl := hnext
        · exact handed_changeCurrent _
        · exact handed_fail terminal
  | addTable | begin | close | consult | reuse => simp [Primitive.attempt?] at hattempt

theorem handed_consult {index : Nat} {inner : Bool}
    (hleads : (consult index inner before).LeadsTo after) : after.handed = before.handed := by
  simp only [consult] at hleads
  split at hleads
  · obtain rfl := hleads
    rfl
  · split at hleads <;> obtain rfl := hleads
    · rfl
    · rfl
    · rw [handed_begin]
      split <;> rfl

theorem handed_reuse {use : PhraseUse} (hleads : (reuse use before).LeadsTo after) :
    after.handed = before.handed := by
  simp only [reuse] at hleads
  split at hleads <;> obtain rfl := hleads
  · rfl
  · rw [absorb, handed_changeCurrent]
    split <;> rfl

/-- A primitive hands the innermost phrase to its action at most, whether it finishes or
faults. -/
theorem handed_of_perform {primitive : Primitive}
    (hleads : (perform setting primitive before).LeadsTo after) :
    after.handed = before.handed ∨ ∃ frame outer, before.frames = frame :: outer ∧
      after.handed = frame.phrase.accepted before.position :: before.handed := by
  cases primitive with
  | addTable | begin =>
      obtain rfl := hleads
      exact .inl rfl
  | close closing => exact handed_close (Outcome.leadsTo_of_map hleads)
  | next | ahead | aheadNot => exact .inl (handed_of_terminal rfl hleads)
  | consult => exact .inl (handed_consult (Outcome.leadsTo_of_map hleads))
  | reuse => exact .inl (handed_reuse (Outcome.leadsTo_of_map hleads))

/-- Judging a parse gives nothing to actions. -/
theorem handed_conclude {matched : Bool}
    (hleads : (conclude setting matched before).LeadsTo after) : after.handed = before.handed := by
  simp only [conclude] at hleads
  split at hleads
  · split at hleads
    · obtain rfl := hleads
      rfl
    · split at hleads <;> obtain rfl := hleads <;> rfl
  · obtain rfl := hleads
    rfl

end Machine

/-! ## Runs -/

namespace Procedure

/-- What the procedure notes itself is never that an action was given a phrase. -/
def IsDiscreet : Procedure Value → Prop
  | .done _ | .fault _ | .exhausted => True
  | .look view => ∀ position, IsDiscreet (view position)
  | .note entry rest => entry.handed? = none ∧ IsDiscreet rest
  | .perform _ rest => ∀ result, IsDiscreet (rest result)

variable {invariant : Core Value → Prop} {post : Bool → Core Value → Prop}
variable {procedure body again : Procedure Value} {machine : Machine Value}
variable {holds : Phrase Value → Prop}

/-- If the invariant makes every innermost phrase fit to be accepted, then all that actions are
given is as it should be, after every call and where the run ends or faults. -/
theorem Ensures.handed (hdiscreet : procedure.IsDiscreet)
    (haccepted : ∀ core, invariant core → ∀ frame outer, core.stack.2 = frame :: outer →
      holds (frame.phrase.accepted core.position))
    (hprocedure : procedure.Ensures setting invariant post machine.core)
    (hinvariant : invariant machine.core) (hmachine : ∀ phrase ∈ machine.handed, holds phrase) :
    (∀ call ∈ procedure.calls setting machine, ∀ phrase ∈ call.after.handed, holds phrase) ∧
      ∀ after, (procedure.run setting machine).LeadsTo after →
        ∀ phrase ∈ after.handed, holds phrase := by
  induction procedure generalizing machine with
  | done matched =>
      refine ⟨List.forall_mem_nil _, ?_⟩
      rintro after rfl
      exact hmachine
  | fault cause => exact hprocedure.elim
  | exhausted => exact ⟨List.forall_mem_nil _, fun _ hleads => hleads.elim⟩
  | look view ih => exact ih _ (hdiscreet _) hprocedure hinvariant hmachine
  | note entry rest ih =>
      have hnoted : ∀ phrase ∈ (machine.note entry).handed, holds phrase := by
        rw [Machine.handed_note hdiscreet.1]
        exact hmachine
      exact ih hdiscreet.2 hprocedure hinvariant hnoted
  | perform primitive rest ih =>
      have hstep : ∀ between, (Machine.perform setting primitive machine).LeadsTo between →
          ∀ phrase ∈ between.handed, holds phrase := by
        intro between hleads phrase hphrase
        rcases Machine.handed_of_perform hleads with hsame | ⟨frame, outer, hframes, hmore⟩
        · exact hmachine phrase (hsame ▸ hphrase)
        · rw [hmore, List.mem_cons] at hphrase
          rcases hphrase with rfl | hearlier
          · exact haccepted _ hinvariant frame outer hframes
          · exact hmachine phrase hearlier
      simp only [Procedure.calls, Procedure.run, Run.andThen]
      cases htest : Grammar.test setting primitive machine with
      | finished result between =>
          obtain ⟨answer, hperform, rfl⟩ := Run.finished_of_map htest
          have hbetween := hstep between (by rw [hperform]; rfl)
          obtain ⟨hkept, hrest⟩ :=
            hprocedure.2 answer between.core (Machine.step_of_perform hperform)
          obtain ⟨hcalls, hrun⟩ := ih _ (hdiscreet _) hrest hkept hbetween
          exact ⟨List.forall_mem_cons.mpr ⟨hbetween, hcalls⟩, hrun⟩
      | faulted cause after =>
          refine ⟨List.forall_mem_nil _, ?_⟩
          rintro left rfl
          exact hstep after (by rw [Run.faulted_of_map htest]; rfl)
      | exhausted => exact ⟨List.forall_mem_nil _, fun _ hleads => hleads.elim⟩

namespace IsDiscreet

theorem andThen {next : Bool → Procedure Value} (hprocedure : procedure.IsDiscreet)
    (hnext : ∀ matched, (next matched).IsDiscreet) : (procedure.andThen next).IsDiscreet := by
  induction procedure with
  | done matched => exact hnext matched
  | fault cause => trivial
  | exhausted => trivial
  | look view ih => exact fun position => ih position (hprocedure position)
  | note entry rest ih => exact ⟨hprocedure.1, ih hprocedure.2⟩
  | perform primitive rest ih => exact fun result => ih result (hprocedure result)

theorem ite {condition : Prop} [Decidable condition] (hthen : body.IsDiscreet)
    (helse : again.IsDiscreet) : (if condition then body else again).IsDiscreet := by
  split
  · exact hthen
  · exact helse

theorem all {Item : Type} {procedure : Item → Procedure Value} (items : List Item)
    (hitems : ∀ item, (procedure item).IsDiscreet) :
    (Procedure.all (items.map procedure)).IsDiscreet := by
  induction items with
  | nil => trivial
  | cons item rest ih => exact (hitems item).andThen fun _ => .ite ih trivial

theorem any {Item : Type} {procedure : Item → Procedure Value} (items : List Item)
    (hitems : ∀ item, (procedure item).IsDiscreet) :
    (Procedure.any (items.map procedure)).IsDiscreet := by
  induction items with
  | nil => trivial
  | cons item rest ih => exact (hitems item).andThen fun _ => .ite trivial ih

theorem round (hbody : body.IsDiscreet) (hagain : again.IsDiscreet) :
    (Procedure.round body again).IsDiscreet :=
  fun _ => hbody.andThen fun _ => .ite (fun _ => .ite trivial hagain) trivial

theorem remarked (hprocedure : procedure.IsDiscreet) (name : String) :
    (procedure.remarked name).IsDiscreet :=
  fun _ => hprocedure.andThen fun _ _ => ⟨rfl, trivial⟩

theorem closedAfter (hbody : body.IsDiscreet) (enclosure : Enclosure) :
    (Procedure.closedAfter enclosure body).IsDiscreet :=
  hbody.andThen fun _ _ => trivial

theorem consulting (hbody : body.IsDiscreet) (enclosure : Enclosure) (index : Nat)
    (inner : Bool) : (Procedure.consulting enclosure index inner body).IsDiscreet :=
  fun _ => .ite (fun _ => trivial) (hbody.closedAfter enclosure)

theorem inside (hbody : body.IsDiscreet) (opening : Opening) (enclosure : Enclosure) :
    (Procedure.inside opening enclosure body).IsDiscreet := by
  cases opening with
  | plain diagnosis => exact fun _ => hbody.closedAfter enclosure
  | memoized table => exact hbody.consulting enclosure table true

theorem ofRule (hbody : body.IsDiscreet) (rule : Rule) :
    (Procedure.ofRule rule body).IsDiscreet := by
  rw [Procedure.ofRule]
  split
  · exact fun _ => hbody.closedAfter .rule
  · exact hbody.consulting .rule _ false

end IsDiscreet

end Procedure

namespace Grammar

theorem procedure_isDiscreet (grammar : Grammar) (steps : Nat) (expression : Expression) :
    (grammar.procedure steps expression : Procedure Value).IsDiscreet := by
  induction steps generalizing expression with
  | zero => trivial
  | succ steps ih =>
      cases expression with
      | terminal | ahead | aheadNot => exact fun _ => trivial
      | rule name =>
          rw [procedure]
          split
          · trivial
          · exact (Procedure.IsDiscreet.ofRule (.all _ ih) _).remarked name
      | choice alternatives => exact .any alternatives ih
      | optional body => exact (ih body).andThen fun _ => trivial
      | star body => exact (ih body).round (ih _)
      | plus body => exact (ih body).andThen fun _ => .ite (ih _) trivial
      | sequence opening parts => exact .inside (.all parts ih) opening .sequence
      | andPredicate opening argument => exact (ih argument).inside opening .andPredicate
      | notPredicate opening argument => exact (ih argument).inside opening .notPredicate

theorem rootProcedure_isDiscreet (grammar : Grammar) (steps : Nat) :
    (grammar.rootProcedure steps : Procedure Value).IsDiscreet := by
  rw [rootProcedure]
  split
  · trivial
  · exact procedure_isDiscreet grammar steps _

end Grammar

end Packrat
