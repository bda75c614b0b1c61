import Packrat.Engine.Primitive
import Packrat.Proofs.Attempt
import Packrat.Proofs.TableSlots

/-!
# What the primitives do

The core of a machine is all that decides how a parse goes on: the cursor, the stack of
phrases, the candidate for reuse and the memo tables.  The counters and the journal are
only written.  Each primitive is described here once, by the core it leads to.
-/

namespace Packrat

variable {Value : Type}

/-- The top phrase, and the open phrases inside it, innermost first. -/
abbrev Stack (Value : Type) := Phrase Value × List (Frame Value)

/-- Changes the phrase that receives the next part. -/
def Stack.changeInnermost (change : Phrase Value → Phrase Value) :
    Stack Value → Stack Value
  | (top, []) => (change top, [])
  | (top, frame :: outer) => (top, { frame with phrase := change frame.phrase } :: outer)

theorem Stack.changeInnermost_comp (first second : Phrase Value → Phrase Value)
    (stack : Stack Value) :
    (stack.changeInnermost first).changeInnermost second =
      stack.changeInnermost fun phrase => second (first phrase) := by
  obtain ⟨top, frames⟩ := stack
  cases frames <;> rfl

theorem Stack.changeInnermost_of_forall_eq {change : Phrase Value → Phrase Value}
    (hchange : ∀ phrase, change phrase = phrase) (stack : Stack Value) :
    stack.changeInnermost change = stack := by
  obtain ⟨top, frames⟩ := stack
  cases frames <;> simp [changeInnermost, hchange]

theorem Phrase.eta (phrase : Phrase Value) :
    ⟨phrase.name, phrase.diagnosis, phrase.start, phrase.stop, phrase.success,
      phrase.children, phrase.value, phrase.failure⟩ = phrase := by
  cases phrase
  rfl

theorem Phrase.start_absorb (use : PhraseUse) (part phrase : Phrase Value) (cursor : Nat) :
    (phrase.absorb use part cursor).start = phrase.start := by
  cases hsuccess : part.success <;> cases use <;>
    simp [absorb, attach, splice, inheritFailure, hsuccess]

structure Core (Value : Type) where
  position : Nat
  stack : Stack Value
  candidate : Option (Phrase Value)
  tables : List (MemoTable Value)

/-- The core after an effect on the cursor and the innermost phrase. -/
def Core.undergo (core : Core Value) (effect : Effect Value) : Core Value :=
  { core with
    position := effect.stop
    stack := core.stack.changeInnermost effect.applyTo }

/-- An effect that leaves the cursor and the phrase as they are. -/
theorem Core.undergo_of_forall_eq {core : Core Value} {effect : Effect Value}
    (hstop : effect.stop = core.position)
    (happly : ∀ phrase, effect.applyTo phrase = phrase) : core.undergo effect = core := by
  rw [undergo, hstop, Stack.changeInnermost_of_forall_eq happly]

theorem Core.undergo_still (core : Core Value) (matched : Bool) :
    core.undergo (.still matched core.position) = core :=
  undergo_of_forall_eq rfl (Effect.applyTo_still matched core.position)

namespace Machine

def core (machine : Machine Value) : Core Value :=
  ⟨machine.position, (machine.top, machine.frames), machine.candidate, machine.tables⟩

@[simp]
theorem core_note (entry : JournalEntry Value) (machine : Machine Value) :
    (machine.note entry).core = machine.core := rfl

@[simp]
theorem core_noteClosed (phrase : Phrase Value) (machine : Machine Value) :
    (machine.noteClosed phrase).core = machine.core := by
  cases hinner : phrase.isInner <;> simp only [noteClosed, hinner] <;> rfl

theorem core_changeCurrent (change : Phrase Value → Phrase Value)
    (machine : Machine Value) :
    (machine.changeCurrent change).core =
      { machine.core with stack := machine.core.stack.changeInnermost change } := by
  cases hframes : machine.frames <;>
    simp [changeCurrent, core, Stack.changeInnermost, hframes]

theorem core_moveTo (position : Nat) (machine : Machine Value) :
    (machine.moveTo position).core = { machine.core with position := position } := rfl

theorem core_absorb (use : PhraseUse) (part : Phrase Value) (machine : Machine Value) :
    (machine.absorb use part).core =
      { machine.core with
        stack := machine.core.stack.changeInnermost
          (·.absorb use part machine.core.position) } :=
  core_changeCurrent _ machine

theorem core_begin (name diagnosis : String) (ticket : Option Ticket)
    (machine : Machine Value) :
    (machine.begin name diagnosis ticket).core =
      { machine.core with
        stack :=
          (machine.top, ⟨.opened name diagnosis machine.position, ticket⟩ ::
            machine.frames) } := rfl

/-! ## Closing -/

/-- The tables after a closed phrase has been stored where its ticket says. -/
def filled (ticket : Option Ticket) (part : Phrase Value)
    (tables : List (MemoTable Value)) : List (MemoTable Value) :=
  match ticket with
  | none => tables
  | some ⟨table, serial⟩ => tables.modify table (·.fill serial part)

theorem length_filled (ticket : Option Ticket) (part : Phrase Value)
    (tables : List (MemoTable Value)) :
    (filled ticket part tables).length = tables.length := by
  cases ticket with
  | none => rfl
  | some ticket => exact List.length_modify _ tables ticket.table

theorem labels_filled (ticket : Option Ticket) (part : Phrase Value)
    (tables : List (MemoTable Value)) :
    (filled ticket part tables).map MemoTable.label = tables.map MemoTable.label := by
  cases ticket with
  | none => rfl
  | some ticket =>
      exact MemoTable.labels_modify tables ticket.table fun _ => MemoTable.label_fill _ _ _

theorem core_fill (ticket : Option Ticket) (part : Phrase Value)
    (machine : Machine Value) :
    (machine.fill ticket part).core =
      { machine.core with tables := filled ticket part machine.core.tables } := by
  cases ticket <;> rfl

/-- Whatever an action does, it yields a value or a fault and nothing else. -/
theorem valueAfter_eq (setting : Setting Value) (closing : Closing)
    (phrase : Phrase Value) (machine : Machine Value) :
    ∃ after, after.core = machine.core ∧
      valueAfter setting closing phrase machine =
        match closing.value? setting.source setting.semantics machine.position phrase with
        | .ok value => .finished value after
        | .error fault => .faulted fault after := by
  cases closing with
  | accept =>
      simp only [valueAfter, act, Closing.value?]
      cases setting.semantics.action? phrase.name with
      | none => exact ⟨machine, rfl, rfl⟩
      | some action =>
          refine ⟨machine.note (.action
            { phrase with stop := machine.position, success := true }), core_note _ _, ?_⟩
          dsimp only
          cases action setting.source
            { phrase with stop := machine.position, success := true } <;> rfl
  | _ => exact ⟨machine, rfl, rfl⟩

variable {setting : Setting Value} {machine : Machine Value} {closing : Closing}
variable {phrase : Phrase Value} {ticket : Option Ticket} {outer : List (Frame Value)}

theorem close_of_frames_eq_nil (hframes : machine.frames = []) :
    close setting closing machine = .faulted .noOpenPhrase machine := by
  simp only [close, hframes]

/-- Closing pops the innermost phrase, stores it, and hands it to the phrase around it
at its own end. -/
theorem close_of_settled {part : Phrase Value}
    (hframes : machine.frames = ⟨phrase, ticket⟩ :: outer)
    (hpart : closing.settled? setting.source setting.semantics machine.position phrase =
      .ok part) :
    ∃ after, close setting closing machine = .finished closing.succeeds after ∧
      after.core =
        ⟨part.stop,
          Stack.changeInnermost (·.absorb closing.use part part.stop)
            (machine.top, outer),
          machine.candidate, filled ticket part machine.tables⟩ := by
  obtain ⟨popped, hcore, hpopped⟩ :=
    valueAfter_eq setting closing phrase { machine with frames := outer }
  have hposition : popped.position = machine.position := congrArg Core.position hcore
  simp only [Closing.settled?] at hpart
  cases hvalue : closing.value? setting.source setting.semantics machine.position phrase with
  | error fault => simp [hvalue] at hpart
  | ok value =>
      simp only [hvalue, Except.ok.injEq] at hpart hpopped
      refine ⟨(((popped.moveTo part.stop).noteClosed part).fill ticket part).absorb
        closing.use part, ?_, ?_⟩
      · simp only [close, hframes, hpopped, hposition, ← hpart]
      · simp only [core_absorb, core_fill, core_noteClosed, core_moveTo, hcore]
        rfl

theorem close_of_fault {fault : Fault}
    (hframes : machine.frames = ⟨phrase, ticket⟩ :: outer)
    (hfault : closing.settled? setting.source setting.semantics machine.position phrase =
      .error fault) :
    ∃ after, close setting closing machine = .faulted fault after ∧
      after.position = machine.position := by
  obtain ⟨popped, hcore, hpopped⟩ :=
    valueAfter_eq setting closing phrase { machine with frames := outer }
  have hposition : popped.position = machine.position := congrArg Core.position hcore
  simp only [Closing.settled?] at hfault
  cases hvalue : closing.value? setting.source setting.semantics machine.position phrase with
  | ok value => simp [hvalue] at hfault
  | error cause =>
      simp only [hvalue, Except.error.injEq] at hfault hpopped
      exact ⟨popped, by simp only [close, hframes, hpopped, hfault], hposition⟩

/-! ## Terminals -/

/-- A failure that is not written down would not have changed the record either. -/
theorem core_fail (terminal : Terminal) (machine : Machine Value) :
    (machine.fail terminal).core =
      machine.core.undergo (.failing terminal.label machine.position) := by
  have happly : (Effect.failing terminal.label machine.position : Effect Value).applyTo =
      fun phrase =>
        { phrase with failure := phrase.failure.record terminal.label machine.position } := by
    funext phrase
    exact Effect.applyTo_failing terminal.label machine.position phrase
  rw [Core.undergo, happly]
  by_cases hbehind : machine.position + 1 < machine.current.failure.reach
  · have hsame : ∀ failure : Failure, machine.position + 1 < failure.reach →
        failure.record terminal.label machine.position = failure := by
      intro failure hreach
      rw [Failure.record, if_pos hreach]
    rw [fail, if_pos hbehind]
    cases hframes : machine.frames <;>
      simp only [current, hframes] at hbehind <;>
      simp only [core, hframes, Stack.changeInnermost, hsame _ hbehind, Phrase.eta] <;>
      rfl
  · rw [fail, if_neg hbehind, core_changeCurrent]
    rfl

theorem core_consume (length : Nat) (machine : Machine Value) :
    (machine.consume length).core =
      machine.core.undergo (.taking machine.position (machine.position + length)) := by
  have happly : (Effect.taking machine.position (machine.position + length) :
      Effect Value).applyTo = _ := funext (Effect.applyTo_taking _ _)
  rw [Core.undergo, happly, consume, core_changeCurrent, core_moveTo]
  rfl

variable (setting : Setting Value) (terminal : Terminal) (machine : Machine Value)

/-- A terminal does to any machine what it does as an attempt. -/
theorem ahead_eq :
    ∃ effect after,
      Attempt.ahead setting.source terminal machine.position = .ok effect ∧
        ahead setting terminal machine = .finished effect.matched after ∧
          after.core = machine.core.undergo effect := by
  simp only [ahead, Attempt.ahead]
  cases terminal.matchLength? setting.source machine.position with
  | some length =>
      exact ⟨_, _, rfl, rfl, (Core.undergo_of_forall_eq rfl (by simp)).symm⟩
  | none => exact ⟨_, _, rfl, rfl, core_fail terminal machine⟩

theorem aheadNot_eq :
    ∃ effect after,
      Attempt.aheadNot setting.source terminal machine.position = .ok effect ∧
        aheadNot setting terminal machine = .finished effect.matched after ∧
          after.core = machine.core.undergo effect := by
  simp only [aheadNot, Attempt.aheadNot]
  cases terminal.matchLength? setting.source machine.position with
  | some length => exact ⟨_, _, rfl, rfl, core_fail terminal.negate machine⟩
  | none => exact ⟨_, _, rfl, rfl, (Core.undergo_of_forall_eq rfl (by simp)).symm⟩

theorem next_eq :
    ∃ effect after,
      Attempt.next setting.source terminal machine.position = .ok effect ∧
        next setting terminal machine = .finished effect.matched after ∧
          after.core = machine.core.undergo effect := by
  by_cases hend : terminal = .endOfText
  · simp only [next, Attempt.next, hend, if_true]
    exact ahead_eq setting .endOfText machine
  · simp only [next, Attempt.next, hend, if_false]
    cases terminal.matchLength? setting.source machine.position with
    | some length => exact ⟨_, _, rfl, rfl, core_consume length machine⟩
    | none => exact ⟨_, _, rfl, rfl, core_fail terminal machine⟩

/-! ## Memo tables -/

variable {setting terminal machine} {index : Nat} {table : MemoTable Value} (inner : Bool)

theorem consult_of_no_table (htable : machine.tables[index]? = none) :
    consult index inner machine = .faulted .outOfRange machine := by
  simp only [consult, htable]

theorem consult_of_hit {part : Phrase Value} (htable : machine.tables[index]? = some table)
    (hlookup : table.lookup machine.position = .hit part) :
    ∃ after, consult index inner machine = .finished true after ∧
      after.core =
        { machine.core with
          candidate := some part
          tables := machine.tables.set index (table.find machine.position).2 } := by
  have hfound : (table.find machine.position).1 = .hit part := by
    rw [MemoTable.find_fst, hlookup]
  simp only [consult, htable, hfound]
  exact ⟨_, rfl, rfl⟩

/-- A rule that is open at the cursor offers a phrase that has failed. -/
theorem consult_of_pending (htable : machine.tables[index]? = some table)
    (hlookup : table.lookup machine.position = .pending) :
    ∃ after, consult index inner machine = .finished true after ∧
      after.core =
        { machine.core with
          candidate :=
            some (.opened (if inner then "" else table.name) table.diagnosis
              machine.position)
          tables := machine.tables.set index (table.find machine.position).2 } := by
  have hfound : (table.find machine.position).1 = .pending := by
    rw [MemoTable.find_fst, hlookup]
  simp only [consult, htable, hfound]
  exact ⟨_, rfl, rfl⟩

theorem consult_of_miss (htable : machine.tables[index]? = some table)
    (hlookup : table.lookup machine.position = .miss) :
    let saved := (table.find machine.position).2.save machine.position
    ∃ after, consult index inner machine = .finished false after ∧
      after.core =
        { machine.core with
          stack :=
            (machine.top,
              ⟨.opened (if inner then "" else table.name) table.diagnosis machine.position,
                saved.1.map fun reservation => ⟨index, reservation.serial⟩⟩ ::
              machine.frames)
          tables := machine.tables.set index saved.2 } := by
  intro saved
  have hfound : (table.find machine.position).1 = .miss := by
    rw [MemoTable.find_fst, hlookup]
  simp only [consult, htable, hfound]
  refine ⟨_, rfl, ?_⟩
  rw [core_begin]
  cases saved.1.bind Reservation.evicted <;> rfl

/-- Reusing hands the candidate to the innermost phrase, at its own end if it is a
successful part and at the cursor if not. -/
theorem reuse_of_candidate {part : Phrase Value} (use : PhraseUse)
    (hcandidate : machine.candidate = some part) :
    let landing := part.landing use machine.position
    ∃ after, reuse use machine = .finished part.success after ∧
      after.core =
        ⟨landing,
          Stack.changeInnermost (·.absorb use part landing) (machine.top, machine.frames),
          none, machine.tables⟩ := by
  intro landing
  simp only [reuse, hcandidate]
  refine ⟨_, rfl, ?_⟩
  rw [core_absorb]
  cases hmoves : part.success && use != .predicate <;>
    simp only [landing, Phrase.landing, hmoves] <;> rfl

theorem reuse_of_no_candidate (use : PhraseUse) (hcandidate : machine.candidate = none) :
    reuse use machine = .faulted .nothingToReuse machine := by
  simp only [reuse, hcandidate]

end Machine

end Packrat
