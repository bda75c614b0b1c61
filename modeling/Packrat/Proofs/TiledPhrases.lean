import Packrat.Proofs.Ledger
import Packrat.Proofs.ParseAnswer
import Packrat.Proofs.PrimitiveSteps
import Packrat.Proofs.Tiling

/-!
# Children tile their phrase

A parse is disciplined if every result that is found is reused at once, and if each table
keeps to one kind of use: what it finds is reused in the way in which the phrases that it
stores are closed.  In whatever order a disciplined parse calls the primitives, the open
phrases stay tiled by their children.
-/

namespace Packrat

variable {Value : Type}

/-! ## The invariant -/

/-- The ledger of the results that fit where they are found: each table keeps those that fit
for the use that the table is for. -/
abbrev Bookkeeping (source : Source) (kind : Nat → PhraseUse) (frames : List (Frame Value))
    (tables : List (MemoTable Value)) : Prop :=
  Ledger (fun index start part => part.FitsAt source (kind index) start) frames tables

namespace Core

/-- What holds after every primitive.  The result that waits to be reused, if there is
one, has been found in the table that is due, and fits at the cursor. -/
structure Sound (source : Source) (kind : Nat → PhraseUse) (due : Option Nat)
    (core : Core Value) : Prop where
  tiled : Stack.Tiled source core.stack.1 core.stack.2 core.position
  books : Bookkeeping source kind core.stack.2 core.tables
  candidate : ∀ part, core.candidate = some part →
    ∃ table, due = some table ∧ part.FitsAt source (kind table) core.position

namespace Sound

variable {source : Source} {kind : Nat → PhraseUse} {due : Option Nat} {core : Core Value}
variable {tables : List (MemoTable Value)}

theorem candidate_eq_none (hsound : core.Sound source kind none) :
    core.candidate = none := by
  apply Option.eq_none_iff_forall_ne_some.mpr
  intro part hpart
  obtain ⟨table, hdue, _⟩ := hsound.candidate part hpart
  contradiction

/-- With nothing found, only the stack and the tables matter. -/
theorem of_candidate_eq_none (hcandidate : core.candidate = none)
    (htiled : Stack.Tiled source core.stack.1 core.stack.2 core.position)
    (hbooks : Bookkeeping source kind core.stack.2 core.tables) :
    core.Sound source kind due where
  tiled := htiled
  books := hbooks
  candidate part hpart := by
    rw [hcandidate] at hpart
    contradiction

theorem undergo (hsound : core.Sound source kind none) {effect : Effect Value}
    (hfits : effect.FitsAt source core.position) :
    (core.undergo effect).Sound source kind none := by
  apply of_candidate_eq_none
  · exact hsound.candidate_eq_none
  · exact hsound.tiled.changeInnermost (fun _ => rfl) fun _ => hfits.applyTo
  · exact hsound.books.changeInnermost fun _ => rfl

/-- A phrase that is opened at the cursor has nothing to tile yet. -/
theorem opened (hsound : core.Sound source kind none) (name diagnosis : String)
    {ticket? : Option Ticket} (hbooks : Bookkeeping source kind core.stack.2 tables)
    (hticket : ∀ ticket, ticket? = some ticket → ticket.ReservedAt tables core.position) :
    ({ core with
        stack :=
          (core.stack.1, ⟨.opened name diagnosis core.position, ticket?⟩ :: core.stack.2)
        tables := tables } : Core Value).Sound source kind none := by
  apply of_candidate_eq_none
  · exact hsound.candidate_eq_none
  · exact ⟨Phrase.opened_tiledTo source name diagnosis core.position, hsound.tiled⟩
  · exact hbooks.push hticket

/-- The innermost phrase takes over a part that fits at the cursor. -/
theorem absorbed (core : Core Value)
    (htiled : Stack.Tiled source core.stack.1 core.stack.2 core.position)
    (hbooks : Bookkeeping source kind core.stack.2 tables) {use : PhraseUse}
    {part : Phrase Value} (hpart : part.FitsAt source use core.position) :
    (⟨part.landing use core.position,
      core.stack.changeInnermost
        (·.absorb use part (part.landing use core.position)), none, tables⟩ :
          Core Value).Sound source kind none := by
  apply of_candidate_eq_none rfl
  · exact htiled.changeInnermost (fun phrase => Phrase.start_absorb use part phrase _)
      fun _ hphrase => hphrase.absorb hpart _
  · exact hbooks.changeInnermost fun phrase => Phrase.start_absorb use part phrase _

/-- A part that fits at the cursor is found in a table. -/
theorem found (hsound : core.Sound source kind none) {index : Nat} {part : Phrase Value}
    (hbooks : Bookkeeping source kind core.stack.2 tables)
    (hpart : part.FitsAt source (kind index) core.position) :
    ({ core with candidate := some part, tables := tables } : Core Value).Sound source kind
      (some index) where
  tiled := hsound.tiled
  books := hbooks
  candidate other hother := by
    obtain rfl : part = other := Option.some.inj hother
    exact ⟨index, rfl, hpart⟩

end Sound

end Core

/-! ## Steps -/

/-- The number of phrases that a finished run leaves open. -/
def Outcome.leftOpen? {Result : Type} : Outcome Value Result → Option Nat
  | .finished _ machine => some machine.frames.length
  | _ => none

/-- The table whose result has to be reused next. -/
def Primitive.due? : Primitive → Option Bool → Option Nat
  | .consult table _, some true => some table
  | _, _ => none

namespace Machine

/-- Whether a primitive may be called.  A result that has been found is to be reused as
its table is used, and a phrase that is to be stored is to be closed in that way. -/
def allows (kind : Nat → PhraseUse) (due : Option Nat) (machine : Machine Value)
    (primitive : Primitive) : Bool :=
  match due, primitive with
  | some table, primitive => primitive == .reuse (kind table)
  | none, .close closing =>
      (machine.frames.head?.bind Frame.ticket).all fun ticket =>
        closing.use == kind ticket.table
  | none, _ => true

variable {setting : Setting Value} {kind : Nat → PhraseUse} {due : Option Nat}
variable {before after : Machine Value}

/-- A terminal has an effect that fits, whether it matches or not. -/
theorem fitsAt_of_attempt? {primitive : Primitive} {attempt : Attempt Value}
    {effect : Effect Value} {position : Nat} (hposition : position ≤ setting.source.length)
    (hattempt : primitive.attempt? setting.source = some attempt)
    (heffect : attempt position = .ok effect) :
    effect.FitsAt setting.source position ∧ ∀ result, primitive.due? result = none := by
  cases primitive with
  | next terminal =>
      obtain rfl := Option.some.inj hattempt
      exact ⟨Effect.fitsAt_of_next hposition heffect, fun _ => rfl⟩
  | ahead terminal =>
      obtain rfl := Option.some.inj hattempt
      exact ⟨Effect.fitsAt_of_ahead heffect, fun _ => rfl⟩
  | aheadNot terminal =>
      obtain rfl := Option.some.inj hattempt
      exact ⟨Effect.fitsAt_of_aheadNot heffect, fun _ => rfl⟩
  | addTable | begin | close | consult | reuse => simp [Primitive.attempt?] at hattempt

/-- With no result due, every step keeps the open phrases tiled, provided that a phrase is
stored for the use that its table is for. -/
theorem step_sound {primitive : Primitive} {core core' : Core Value} {result : Option Bool}
    (hstep : Core.Step setting primitive core result core')
    (hsound : core.Sound setting.source kind none)
    (hstored : ∀ closing, primitive = .close closing →
      ∀ ticket ∈ core.stack.2.head?.bind Frame.ticket, closing.use = kind ticket.table) :
    core'.Sound setting.source kind (primitive.due? result) := by
  cases hstep with
  | addTable _ name diagnosis =>
      apply Core.Sound.of_candidate_eq_none
      · exact hsound.candidate_eq_none
      · exact hsound.tiled
      · exact hsound.books.append_empty
          (MemoTable.occupied_empty name diagnosis setting.capacity.value)
  | begin _ name diagnosis => exact hsound.opened name diagnosis hsound.books nofun
  | @close _ closing phrase part ticket? outer hframes hpart =>
      have htiled := hsound.tiled
      have hbooks := hsound.books
      rw [hframes] at htiled hbooks
      obtain ⟨hphrase, houter⟩ := htiled
      have hcursor := hphrase.stop_le_length houter.cursor_le_length
      have hfits := Closing.fitsAt_of_settled? hphrase hcursor hpart
      have hgood : ∀ ticket, ticket? = some ticket →
          part.FitsAt setting.source (kind ticket.table) phrase.start := by
        intro ticket hticket
        rw [← hstored closing rfl ticket (by rw [hframes]; exact hticket)]
        exact hfits
      rw [← Closing.landing_of_settled? hpart, hsound.candidate_eq_none]
      let popped : Core Value := ⟨phrase.start, (core.stack.1, outer), none, core.tables⟩
      exact Core.Sound.absorbed popped houter (hbooks.filled hgood) hfits
  | terminal _ hattempt heffect =>
      obtain ⟨hfits, hdue⟩ :=
        fitsAt_of_attempt? hsound.tiled.cursor_le_length hattempt heffect
      rw [hdue]
      exact hsound.undergo hfits
  | hit _ _ htable hlookup =>
      have hfits := (hsound.books.holds _ _ htable).good_of_lookup hlookup
      exact hsound.found (hsound.books.find htable core.position) hfits
  | pending _ _ htable =>
      exact hsound.found (hsound.books.find htable core.position) (Phrase.fitsAt_of_failed rfl)
  | miss _ _ htable =>
      apply hsound.opened _ _ (hsound.books.save htable core.position)
      intro ticket hticket
      exact hsound.books.reservedAt_save htable hticket
  | reuse _ _ hcandidate =>
      rw [hsound.candidate_eq_none] at hcandidate
      contradiction

/-- Every primitive that may be called keeps the open phrases tiled. -/
theorem perform_sound {primitive : Primitive} {result : Option Bool}
    (hsound : before.core.Sound setting.source kind due)
    (hallowed : before.allows kind due primitive = true)
    (hperform : perform setting primitive before = .finished result after) :
    after.core.Sound setting.source kind (primitive.due? result) := by
  have hstep := step_of_perform hperform
  cases due with
  | some table =>
      obtain rfl : primitive = .reuse (kind table) := by simpa [allows] using hallowed
      obtain ⟨part, hcandidate, rfl, hcore⟩ := hstep.eq_of_reuse
      obtain ⟨other, hdue, hpart⟩ := hsound.candidate part hcandidate
      obtain rfl := Option.some.inj hdue
      rw [hcore]
      exact Core.Sound.absorbed before.core hsound.tiled hsound.books hpart
  | none =>
      apply step_sound hstep hsound
      rintro closing rfl ticket hticket
      rw [allows, Option.all_eq_true] at hallowed
      exact beq_iff_eq.mp (hallowed ticket hticket)

/-! ## Runs -/

/-- The machines that a disciplined parse goes through, each with the table whose result
has to be reused next.  The parse begins on `machine`, whatever earlier parses have left
there, and notes may be taken at any time. -/
inductive Reached (setting : Setting Value) (kind : Nat → PhraseUse)
    (machine : Machine Value) : Option Nat → Machine Value → Prop where
  | start : Reached setting kind machine none (machine.start setting)
  | perform {due : Option Nat} {before after : Machine Value} {primitive : Primitive}
      {result : Option Bool} (hbefore : Reached setting kind machine due before)
      (hallowed : before.allows kind due primitive = true)
      (hstep : perform setting primitive before = .finished result after) :
      Reached setting kind machine (primitive.due? result) after
  | note {due : Option Nat} {before : Machine Value} (entry : JournalEntry Value)
      (hbefore : Reached setting kind machine due before) :
      Reached setting kind machine due (before.note entry)

/-- Calls primitives one after the other, and yields the table that is due in the end.
A primitive that may not be called counts as out of reach. -/
def follow (setting : Setting Value) (kind : Nat → PhraseUse) :
    List Primitive → Option Nat → Run Value (Option Nat)
  | [], due => .done due
  | primitive :: rest, due =>
      fun machine =>
        if machine.allows kind due primitive then
          ((perform setting primitive).andThen fun result =>
            follow setting kind rest (primitive.due? result)) machine
        else .exhausted

variable {machine reached : Machine Value}

/-- Primitives that are followed to the end lead from a machine that is reached to another
one. -/
theorem Reached.follow {primitives : List Primitive} {left : Option Nat}
    (hbefore : Reached setting kind machine due before)
    (hfollow : follow setting kind primitives due before = .finished left after) :
    Reached setting kind machine left after := by
  induction primitives generalizing due before with
  | nil =>
      obtain ⟨rfl, rfl⟩ := Outcome.finished.inj hfollow
      exact hbefore
  | cons primitive rest ih =>
      simp only [Machine.follow] at hfollow
      by_cases hallowed : before.allows kind due primitive = true
      · rw [if_pos hallowed] at hfollow
        simp only [Run.andThen] at hfollow
        cases hstep : Machine.perform setting primitive before with
        | finished result between =>
            rw [hstep] at hfollow
            exact ih (hbefore.perform hallowed hstep) hfollow
        | faulted cause between => simp [hstep] at hfollow
        | exhausted => simp [hstep] at hfollow
      · rw [if_neg hallowed] at hfollow
        contradiction

theorem start_sound : (machine.start setting).core.Sound setting.source kind none := by
  apply Core.Sound.of_candidate_eq_none
  · rfl
  · exact ⟨rfl, .nil 0⟩
  · exact .of_occupied_eq_nil fun _ => occupied_start

theorem Reached.sound (hreached : Reached setting kind machine due reached) :
    reached.core.Sound setting.source kind due := by
  induction hreached with
  | start => exact start_sound
  | perform _ hallowed hstep ih => exact perform_sound ih hallowed hstep
  | note entry _ ih =>
      rw [core_note]
      exact ih

/-- What a successful parse answers covers all that was matched. -/
theorem rootPhrase_covers {top : Phrase Value} {position : Nat} (hstart : top.start = 0)
    (htiled : top.TiledTo setting.source position) :
    (rootPhrase top position).success = true ∧ (rootPhrase top position).start = 0 ∧
      (rootPhrase top position).stop = position := by
  simp only [rootPhrase]
  split
  case h_1 root hchildren =>
    -- A single child spans all that the top phrase does.
    rw [Phrase.TiledTo, hchildren, hstart] at htiled
    obtain ⟨hleaf, hbegins, hends⟩ := htiled.of_singleton
    exact ⟨hleaf.success, hbegins, hends⟩
  case h_2 => exact ⟨rfl, hstart, rfl⟩

/-- At every moment of a disciplined parse the open phrases are tiled by their children,
and a root procedure that succeeds with nothing left open has matched a phrase from the
start of the source to the cursor. -/
theorem children_tile_of_reached (hreached : Reached setting kind machine due reached) :
    Stack.Tiled setting.source reached.top reached.frames reached.position ∧
      ∀ root : Run Value Bool, root (machine.start setting) = .finished true reached →
        reached.frames = [] →
          ∃ phrase after, parse setting root machine = .finished (.ok phrase) after ∧
            after.position = reached.position ∧ phrase.success = true ∧
              phrase.start = 0 ∧ phrase.stop = after.position := by
  have htiled := hreached.sound.tiled
  refine ⟨htiled, ?_⟩
  intro root hroot hframes
  simp only [core, hframes] at htiled
  obtain ⟨hstart, htop⟩ := htiled
  obtain ⟨hsuccess, hbegins, hends⟩ := rootPhrase_covers hstart htop
  obtain ⟨after, hconclude, hposition⟩ := conclude_eq setting hframes true
  refine ⟨rootPhrase reached.top reached.position, after, ?_, hposition, hsuccess, hbegins, ?_⟩
  · simp only [parse, Run.andThen, hroot]
    exact hconclude
  · rw [hposition]
    exact hends

/-- A term is stored although the phrase around it fails, and is found again. -/
theorem children_tile_of_reached_term :
    let setting : Setting Nat := ⟨.ofText "x+x", .empty, ⟨1, by decide⟩⟩
    let machine := Machine.initial.addTable setting "term" "a term"
    let kind : Nat → PhraseUse := fun _ => .rule
    let calls : List Primitive :=
      [.begin "sum" "", .consult 0 false, .next (.character 'x'), .close .accept,
        .next (.character '-'), .close .reject, .consult 0 false, .reuse .rule]
    let root := (follow setting kind calls none).map fun _ => true
    ∃ due reached, Reached setting kind machine due reached ∧
      Stack.Tiled setting.source reached.top reached.frames reached.position ∧
        ∃ phrase after, parse setting root machine = .finished (.ok phrase) after ∧
          phrase.success = true ∧ phrase.start = 0 ∧ phrase.stop = after.position := by
  intro setting machine kind calls root
  have hopen : (follow setting kind calls none (machine.start setting)).leftOpen? = some 0 := by
    decide +kernel
  cases hfollow : follow setting kind calls none (machine.start setting) with
  | finished due reached =>
      have hreached : Reached setting kind machine due reached := .follow .start hfollow
      have hroot : root (machine.start setting) = .finished true reached := by
        simp only [root, Run.map, Run.andThen, hfollow, Run.done]
      have hframes : reached.frames = [] := by
        rw [hfollow] at hopen
        exact List.eq_nil_of_length_eq_zero (Option.some.inj hopen)
      obtain ⟨htiled, hanswer⟩ := children_tile_of_reached hreached
      obtain ⟨phrase, after, hparse, _, hphrase⟩ := hanswer root hroot hframes
      exact ⟨due, reached, hreached, htiled, phrase, after, hparse, hphrase⟩
  | faulted cause after => rw [hfollow] at hopen; contradiction
  | exhausted => rw [hfollow] at hopen; contradiction

end Machine

end Packrat
