import Packrat.Proofs.History
import Packrat.Proofs.Work

/-!
# The books of a machine

The counters, the events of phrases that are opened and closed, and the open phrases are three
records of the same thing.  What a primitive adds to them is one posting, which is read off the
core of the machine that the primitive is performed on.
-/

namespace Packrat

variable {Value : Type} {setting : Setting Value}

/-- How the journal refers to a phrase. -/
structure Bracket where
  title : String
  inner : Bool
  start : Nat
deriving DecidableEq

def Bracket.of (name diagnosis : String) (start : Nat) : Bracket :=
  ⟨if name.isEmpty then diagnosis else name, name.isEmpty, start⟩

def Phrase.bracket (phrase : Phrase Value) : Bracket :=
  .of phrase.name phrase.diagnosis phrase.start

/-- The event is about a phrase that is opened or closed. -/
def Event.isBracket : Event → Bool
  | .opened .. | .closed .. => true
  | _ => false

structure Books where
  counters : Counters
  /-- The events of phrases that are opened or closed, oldest first. -/
  brackets : List Event
  /-- The open phrases, innermost first. -/
  unclosed : List Bracket

/-- What is written down about one primitive. -/
inductive Posting where
  | opened (name diagnosis : String) (start : Nat)
  | closed (closing : Closing) (cursor : Nat)
  | reused (name : String)
  | nothing

/-- Only phrases with a name are counted. -/
def Books.post (books : Books) : Posting → Books
  | .opened name diagnosis start =>
      let bracket := Bracket.of name diagnosis start
      { counters := if name.isEmpty then books.counters else books.counters.enter name start
        brackets := books.brackets ++ [.opened bracket.title bracket.inner start]
        unclosed := bracket :: books.unclosed }
  | .closed closing cursor =>
      match books.unclosed with
      | [] => books
      | bracket :: outer =>
          { counters :=
              if bracket.inner then books.counters
              else books.counters.finish bracket.title closing.succeeds
            brackets := books.brackets ++
              [.closed bracket.title bracket.inner bracket.start
                (if closing.consumes then cursor else bracket.start) closing.succeeds]
            unclosed := outer }
  | .reused name =>
      { books with
        counters := if name.isEmpty then books.counters else books.counters.reuse name }
  | .nothing => books

/-- What a primitive that ends with a result has to be posted as. -/
def Core.posting (core : Core Value) (primitive : Primitive) (result : Option Bool) : Posting :=
  match primitive with
  | .begin name diagnosis => .opened name diagnosis core.position
  | .close closing => .closed closing core.position
  | .consult index inner =>
      match core.tables[index]? with
      | none => .nothing
      | some table =>
          let name := if inner then "" else table.name
          if result = some true then .reused name
          else .opened name table.diagnosis core.position
  | _ => .nothing

theorem Core.posting_of_attempt? {primitive : Primitive} {attempt : Attempt Value}
    {source : Source} (hattempt : primitive.attempt? source = some attempt)
    (core : Core Value) (result : Option Bool) : core.posting primitive result = .nothing := by
  cases primitive <;> first | rfl | simp [Primitive.attempt?] at hattempt

/-! ## What each primitive writes -/

namespace Phrase

theorem bracket_absorb (phrase : Phrase Value) (use : PhraseUse) (part : Phrase Value)
    (cursor : Nat) : (phrase.absorb use part cursor).bracket = phrase.bracket := by
  cases hsuccess : part.success <;> cases use <;>
    simp [absorb, attach, splice, inheritFailure, hsuccess, bracket]

end Phrase

namespace Machine

def brackets (machine : Machine Value) : List Event :=
  (eventsOf machine.journal.entries).filter Event.isBracket

def books (machine : Machine Value) : Books :=
  ⟨machine.counters, machine.brackets, machine.frames.map fun frame => frame.phrase.bracket⟩

variable {machine before after : Machine Value}

theorem brackets_note {entry : JournalEntry Value} (hentry : entry.event? = none) :
    (machine.note entry).brackets = machine.brackets := by
  simp [brackets, note, eventsOf, hentry]

theorem brackets_noteEvent (event : Event) :
    (machine.noteEvent event).brackets =
      machine.brackets ++ if event.isBracket then [event] else [] := by
  cases hevent : event.isBracket <;>
    simp [brackets, noteEvent, note, eventsOf, JournalEntry.event?, hevent]

theorem books_note {entry : JournalEntry Value} (hentry : entry.event? = none) :
    (machine.note entry).books = machine.books := by
  rw [books, brackets_note hentry]
  rfl

theorem books_noteEvent {event : Event} (hevent : event.isBracket = false) :
    (machine.noteEvent event).books = machine.books := by
  rw [books, brackets_noteEvent, hevent, if_neg Bool.false_ne_true, List.append_nil]
  rfl

@[simp]
theorem books_moveTo (position : Nat) : (machine.moveTo position).books = machine.books := rfl

theorem books_changeCurrent {change : Phrase Value → Phrase Value}
    (hchange : ∀ phrase, (change phrase).bracket = phrase.bracket) :
    (machine.changeCurrent change).books = machine.books := by
  cases hframes : machine.frames <;>
    simp [changeCurrent, hframes, books, brackets, hchange]

theorem books_absorb (use : PhraseUse) (part : Phrase Value) :
    (machine.absorb use part).books = machine.books :=
  books_changeCurrent fun phrase => phrase.bracket_absorb use part machine.position

theorem books_fill (ticket : Option Ticket) (part : Phrase Value) :
    (machine.fill ticket part).books = machine.books := by
  cases ticket <;> rfl

theorem books_fail (terminal : Terminal) : (machine.fail terminal).books = machine.books := by
  rw [fail]
  split
  · rfl
  · have hnoted : (machine.noteEvent
        (.failureRecorded terminal.label machine.position)).books = machine.books :=
      books_noteEvent rfl
    rw [← hnoted]
    exact books_changeCurrent fun _ => rfl

theorem books_consume (length : Nat) : (machine.consume length).books = machine.books :=
  books_changeCurrent fun _ => rfl

theorem books_begin (name diagnosis : String) (ticket : Option Ticket) :
    (machine.begin name diagnosis ticket).books =
      machine.books.post (.opened name diagnosis machine.position) := by
  have hbrackets := machine.brackets_noteEvent
    (.opened (Bracket.of name diagnosis machine.position).title name.isEmpty machine.position)
  exact congrArg
    (Books.mk (if name.isEmpty then machine.counters
      else machine.counters.enter name machine.position) ·
      (Bracket.of name diagnosis machine.position ::
        machine.frames.map fun frame => frame.phrase.bracket)) hbrackets

theorem books_offer (name : String) (candidate : Phrase Value) :
    (machine.offer name candidate).books = machine.books.post (.reused name) := rfl

/-- Whatever becomes of an action, it at most leaves a note of the phrase it was given. -/
theorem eq_of_valueAfter {closing : Closing} {phrase : Phrase Value}
    (hvalue : (valueAfter setting closing phrase machine).LeadsTo after) :
    after = machine ∨ ∃ accepted, after = machine.note (.action accepted) := by
  cases closing with
  | accept =>
      simp only [valueAfter, act] at hvalue
      split at hvalue
      · exact .inl (Eq.symm hvalue)
      · split at hvalue <;> exact .inr ⟨_, Eq.symm hvalue⟩
  | _ => exact .inl (Eq.symm hvalue)

theorem books_valueAfter {closing : Closing} {phrase : Phrase Value}
    (hvalue : (valueAfter setting closing phrase machine).LeadsTo after) :
    after.books = machine.books := by
  rcases eq_of_valueAfter hvalue with rfl | ⟨accepted, rfl⟩
  · rfl
  · exact books_note rfl

theorem books_noteClosed (phrase : Phrase Value) :
    (machine.noteClosed phrase).books =
      { machine.books with
        counters :=
          if phrase.isInner then machine.books.counters
          else machine.books.counters.finish phrase.name phrase.success
        brackets := machine.books.brackets ++
          [.closed phrase.title phrase.isInner phrase.start phrase.stop phrase.success] } := by
  have hbrackets := machine.brackets_noteEvent
    (.closed phrase.title phrase.isInner phrase.start phrase.stop phrase.success)
  cases hinner : phrase.isInner with
  | true =>
      rw [hinner] at hbrackets
      simp only [noteClosed, hinner, if_true]
      exact congrArg (Books.mk machine.counters · machine.books.unclosed) hbrackets
  | false =>
      rw [hinner] at hbrackets
      simp only [noteClosed, hinner, Bool.false_eq_true, if_false]
      exact congrArg
        (Books.mk (machine.counters.finish phrase.name phrase.success) · machine.books.unclosed)
        hbrackets

theorem books_close {closing : Closing} {matched : Bool}
    (hclose : close setting closing before = .finished matched after) :
    after.books = before.books.post (.closed closing before.position) := by
  cases hframes : before.frames with
  | nil =>
      rw [close_of_frames_eq_nil hframes] at hclose
      contradiction
  | cons frame outer =>
      obtain ⟨phrase, ticket⟩ := frame
      simp only [close, hframes] at hclose
      cases hvalue : valueAfter setting closing phrase { before with frames := outer } with
      | finished value popped =>
          have hleads : (valueAfter setting closing phrase
              { before with frames := outer }).LeadsTo popped := by
            rw [hvalue]
            rfl
          have hposition : popped.position = before.position := by
            rcases eq_of_valueAfter hleads with rfl | ⟨_, rfl⟩ <;> rfl
          simp only [hvalue, hposition] at hclose
          obtain ⟨_, rfl⟩ := Outcome.finished.inj hclose
          rw [books_absorb, books_fill, books_noteClosed, books_moveTo, books_valueAfter hleads]
          have hunclosed : before.books.unclosed =
              phrase.bracket :: outer.map fun frame => frame.phrase.bracket := by
            rw [books, hframes]
            rfl
          simp only [Books.post, hunclosed]
          cases hinner : phrase.name.isEmpty <;>
            simp [books, brackets, Closing.settle, Phrase.isInner, Phrase.title, Phrase.bracket,
              Bracket.of, hinner]
      | faulted | exhausted => simp [hvalue] at hclose

theorem books_consult {index : Nat} {inner found : Bool}
    (hconsult : consult index inner before = .finished found after) :
    after.books = before.books.post (before.core.posting (.consult index inner) (some found)) := by
  cases htable : before.tables[index]? with
  | none =>
      rw [consult_of_no_table inner htable] at hconsult
      contradiction
  | some table =>
      have hposting : before.core.posting (.consult index inner) (some found) =
          if found then .reused (if inner then "" else table.name)
          else .opened (if inner then "" else table.name) table.diagnosis before.position := by
        simp only [Core.posting, core, htable, Option.some.injEq]
      simp only [consult, htable] at hconsult
      rw [hposting]
      split at hconsult <;> obtain ⟨rfl, rfl⟩ := Outcome.finished.inj hconsult
      · rw [books_offer, books_noteEvent rfl]
        rfl
      · rw [books_offer, books_noteEvent rfl]
        rfl
      · rw [books_begin]
        split
        · rw [books_noteEvent rfl]
          rfl
        · rfl

theorem books_reuse {use : PhraseUse} {matched : Bool}
    (hreuse : reuse use before = .finished matched after) : after.books = before.books := by
  simp only [reuse] at hreuse
  split at hreuse
  · contradiction
  · obtain ⟨_, rfl⟩ := Outcome.finished.inj hreuse
    rw [books_absorb]
    split <;> rfl

theorem books_ahead {terminal : Terminal} {matched : Bool}
    (hahead : ahead setting terminal before = .finished matched after) :
    after.books = before.books := by
  simp only [ahead] at hahead
  split at hahead <;> obtain ⟨_, rfl⟩ := Outcome.finished.inj hahead
  · rfl
  · exact books_fail terminal

theorem books_aheadNot {terminal : Terminal} {matched : Bool}
    (hahead : aheadNot setting terminal before = .finished matched after) :
    after.books = before.books := by
  simp only [aheadNot] at hahead
  split at hahead <;> obtain ⟨_, rfl⟩ := Outcome.finished.inj hahead
  · exact books_fail terminal.negate
  · rfl

theorem books_next {terminal : Terminal} {matched : Bool}
    (hnext : next setting terminal before = .finished matched after) :
    after.books = before.books := by
  rw [next] at hnext
  split at hnext
  · exact books_ahead hnext
  · simp only at hnext
    split at hnext <;> obtain ⟨_, rfl⟩ := Outcome.finished.inj hnext
    · exact books_consume _
    · exact books_fail terminal

/-- Every primitive that finishes is written down as its posting says. -/
theorem books_of_perform {primitive : Primitive} {result : Option Bool}
    (hperform : perform setting primitive before = .finished result after) :
    after.books = before.books.post (before.core.posting primitive result) := by
  cases primitive with
  | addTable name diagnosis =>
      obtain ⟨_, hchange, rfl⟩ := Run.finished_of_map hperform
      obtain ⟨_, rfl⟩ := Outcome.finished.inj hchange
      rfl
  | begin name diagnosis =>
      obtain ⟨_, hchange, rfl⟩ := Run.finished_of_map hperform
      obtain ⟨_, rfl⟩ := Outcome.finished.inj hchange
      exact books_begin name diagnosis none
  | close closing =>
      obtain ⟨matched, hclose, rfl⟩ := Run.finished_of_map hperform
      exact books_close hclose
  | next terminal =>
      obtain ⟨matched, hnext, rfl⟩ := Run.finished_of_map hperform
      exact books_next hnext
  | ahead terminal =>
      obtain ⟨matched, hahead, rfl⟩ := Run.finished_of_map hperform
      exact books_ahead hahead
  | aheadNot terminal =>
      obtain ⟨matched, hahead, rfl⟩ := Run.finished_of_map hperform
      exact books_aheadNot hahead
  | consult index inner =>
      obtain ⟨matched, hconsult, rfl⟩ := Run.finished_of_map hperform
      exact books_consult hconsult
  | reuse use =>
      obtain ⟨matched, hreuse, rfl⟩ := Run.finished_of_map hperform
      exact books_reuse hreuse

/-- A fault is not written down.  Where an action has faulted, its phrase has left the stack
all the same. -/
theorem books_of_fault {primitive : Primitive} {cause : Fault}
    (hperform : perform setting primitive before = .faulted cause after) :
    after = before ∨
      ActionFault setting primitive before after cause ∧
        after.books = { before.books with unclosed := before.books.unclosed.tail } := by
  rcases fault_of_perform hperform with ⟨_, hsame⟩ | hfault
  · exact .inl hsame
  · refine .inr ⟨hfault, ?_⟩
    obtain ⟨phrase, ticket, outer, _, hframes, _⟩ := hfault.action
    obtain rfl := hfault.primitive_eq
    have hclose := Run.faulted_of_map hperform
    simp only [close, hframes] at hclose
    cases hvalue : valueAfter setting .accept phrase { before with frames := outer } with
    | faulted fault popped =>
        simp only [hvalue] at hclose
        obtain ⟨_, rfl⟩ := Outcome.faulted.inj hclose
        have hleads : (valueAfter setting .accept phrase
            { before with frames := outer }).LeadsTo popped := by
          rw [hvalue]
          rfl
        rw [books_valueAfter hleads, books, books, hframes]
        rfl
    | finished | exhausted => simp [hvalue] at hclose

/-- A parse begins with empty books. -/
theorem books_start (setting : Setting Value) (machine : Machine Value) :
    (machine.start setting).books = ⟨.zero, [], []⟩ := rfl

/-- Judging a parse at most makes the counters of the tables known. -/
theorem books_conclude {matched : Bool}
    (hconclude : (conclude setting matched before).LeadsTo after) :
    ∃ tables, after.books =
      { before.books with counters := { before.books.counters with tables := tables } } := by
  by_cases hframes : before.frames.isEmpty
  · refine ⟨before.tables.map fun table => (table.name, table.counters), ?_⟩
    simp only [conclude, hframes, if_true] at hconclude
    cases matched with
    | true =>
        obtain rfl := hconclude
        exact books_noteEvent rfl
    | false =>
        simp only [Bool.false_eq_true, if_false] at hconclude
        split at hconclude <;> obtain rfl := hconclude
        · exact books_noteEvent rfl
        · rfl
  · refine ⟨before.counters.tables, ?_⟩
    simp only [conclude, hframes, Bool.false_eq_true, if_false] at hconclude
    rw [hconclude]
    rfl

end Machine

end Packrat
