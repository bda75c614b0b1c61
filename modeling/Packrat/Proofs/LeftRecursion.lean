import Mathlib.Data.List.Nodup
import Packrat.Proofs.SlotOwners

/-!
# Left recursion

A rule that is tried again where it is still open is found to be open, and fails there.
What tells is the slot of the open phrase, so this lasts until the ring of the table has
come round to that slot once more; until then, the rule does not enter its body again.
A caught fault of an action changes nothing about this.
-/

namespace Packrat

variable {Value : Type} {setting : Setting Value}

/-! ## How long a slot is kept -/

namespace MemoTable

/-- The slot reserved for `start` under a serial number is still there, after `saves` later
reservations. -/
structure Remembers (serial start saves : Nat) (table : MemoTable Value) : Prop where
  kept : ∃ place slot, table.slots[place]? = some (some slot) ∧ slot.serial = serial ∧
    slot.start = start ∧ (place + saves) % table.slots.length = table.last

variable {table : MemoTable Value} {serial start saves : Nat}

theorem remembers_save (hslots : table.slots ≠ []) (position : Nat) :
    (table.save position).2.Remembers (table.serial + 1) position 0 := by
  have hnext : (table.last + 1) % table.slots.length < table.slots.length :=
    Nat.mod_lt _ (List.length_pos_iff.mpr hslots)
  refine ⟨(table.last + 1) % table.slots.length, ⟨position, table.serial + 1, none⟩, ?_, rfl,
    rfl, ?_⟩
  · rw [slots_save hslots, List.getElem?_set_self hnext]
  · rw [length_slots_save, last_save hslots, Nat.add_zero, Nat.mod_eq_of_lt hnext]

theorem Remembers.find (hkept : table.Remembers serial start saves) (position : Nat) :
    (table.find position).2.Remembers serial start saves := by
  obtain ⟨place, slot, hslot, hserial, hstart, hlast⟩ := hkept
  refine ⟨place, slot, ?_, hserial, hstart, ?_⟩
  · rw [slots_find, hslot]
  · rw [slots_find, last_find, hlast]

/-- A reservation takes the slot only if the ring has come round. -/
theorem Remembers.save (hkept : table.Remembers serial start saves)
    (hsaves : saves + 1 < table.slots.length) (position : Nat) :
    (table.save position).2.Remembers serial start (saves + 1) := by
  obtain ⟨place, slot, hslot, hserial, hstart, hlast⟩ := hkept
  have hplace : place < table.slots.length := (List.getElem?_eq_some_iff.mp hslot).1
  have hslots : table.slots ≠ [] := List.ne_nil_of_length_pos (Nat.zero_lt_of_lt hplace)
  have hnext : (table.last + 1) % table.slots.length =
      (place + (saves + 1)) % table.slots.length := by
    rw [← hlast, Nat.mod_add_mod, Nat.add_assoc]
  have hother : (table.last + 1) % table.slots.length ≠ place := by
    rw [hnext]
    by_cases hwraps : place + (saves + 1) < table.slots.length
    · rw [Nat.mod_eq_of_lt hwraps]
      omega
    · rw [Nat.mod_eq_sub_mod (Nat.not_lt.mp hwraps), Nat.mod_eq_of_lt (by omega)]
      omega
  refine ⟨place, slot, ?_, hserial, hstart, ?_⟩
  · rw [slots_save hslots, List.getElem?_set_ne hother, hslot]
  · rw [length_slots_save, last_save hslots, hnext]

theorem Remembers.fill (hkept : table.Remembers serial start saves) (filled : Nat)
    (part : Phrase Value) : (table.fill filled part).Remembers serial start saves := by
  obtain ⟨place, slot, hslot, hserial, hstart, hlast⟩ := hkept
  refine ⟨place, if slot.serial = filled then { slot with result := some part } else slot, ?_,
    ?_, ?_, ?_⟩
  · simp only [MemoTable.fill, List.getElem?_map, hslot, Option.map_some]
  · rw [← hserial]
    split <;> rfl
  · rw [← hstart]
    split <;> rfl
  · rw [length_slots_fill]
    exact hlast

end MemoTable

/-! ## While the phrase is open -/

theorem Grammar.remarked_of_finished {procedure : Run Value Bool} {before after : Machine Value}
    {matched : Bool} (hrun : procedure before = .finished matched after) (name : String) :
    remarked name procedure before =
      .finished matched (after.note (.rule name matched before.position after.position)) := by
  simp only [remarked, Run.andThen, Run.look, Run.change, Run.done, hrun]

/-- The primitive has opened a phrase because a table had no result. -/
def Primitive.opensFor (index : Nat) : Primitive → Bool → Bool
  | .consult table _, found => table == index && !found
  | _, _ => false

/-- How many phrases have been opened because a table had no result. -/
def Course.openings (index : Nat) (calls : List (Call Value)) : Nat :=
  calls.countP fun call => call.primitive.opensFor index call.result

/-- A table of the core still remembers a reservation. -/
def Core.Remembers (index serial start saves : Nat) (core : Core Value) : Prop :=
  ∃ table, core.tables[index]? = some table ∧ table.Remembers serial start saves

namespace Core

variable {index serial start saves : Nat} {before after : Core Value}

theorem Remembers.set {old new : MemoTable Value} {place later : Nat}
    (hkept : before.Remembers index serial start saves)
    (hold : before.tables[place]? = some old)
    (hnew : place = index → old.Remembers serial start saves → new.Remembers serial start later)
    (hsaves : place ≠ index → later = saves)
    (htables : after.tables = before.tables.set place new) :
    after.Remembers index serial start later := by
  obtain ⟨table, htable, hremembers⟩ := hkept
  by_cases hplace : place = index
  · subst hplace
    obtain rfl : old = table := Option.some.inj (hold.symm.trans htable)
    have hlength := (List.getElem?_eq_some_iff.mp hold).1
    refine ⟨new, ?_, hnew rfl hremembers⟩
    rw [htables, List.getElem?_set_self hlength]
  · obtain rfl := hsaves hplace
    refine ⟨table, ?_, hremembers⟩
    rw [htables, List.getElem?_set_ne hplace, htable]

theorem opensFor_eq_false_of_attempt? {source : Source} {primitive : Primitive}
    {attempt : Attempt Value} (hattempt : primitive.attempt? source = some attempt)
    (index : Nat) (result : Bool) : primitive.opensFor index result = false := by
  cases primitive <;> simp_all [Primitive.attempt?, Primitive.opensFor]

/-- Storing a closed phrase moves no slot. -/
theorem Remembers.filled (hkept : before.Remembers index serial start saves)
    {ticket : Option Ticket} {part : Phrase Value}
    (htables : after.tables = Machine.filled ticket part before.tables) :
    after.Remembers index serial start saves := by
  obtain ⟨table, htable, hremembers⟩ := hkept
  cases ticket with
  | none => exact ⟨table, htables ▸ htable, hremembers⟩
  | some ticket =>
      refine ⟨if ticket.table = index then table.fill ticket.serial part else table, ?_, ?_⟩
      · simp only [htables, Machine.filled, List.getElem?_modify, htable, Option.map_eq_map,
          Option.map_some]
      · split
        · exact hremembers.fill ticket.serial part
        · exact hremembers

/-- A step makes the reservation older only by opening a phrase for want of a result. -/
theorem Step.remembers {primitive : Primitive} {answer : Option Bool}
    (hstep : Step setting primitive before answer after)
    (hcapacity : ∀ table ∈ before.tables, table.slots.length = setting.capacity.value)
    (hkept : before.Remembers index serial start saves)
    (hsaves : saves + (primitive.opensFor index (answer.getD true)).toNat <
      setting.capacity.value) :
    after.Remembers index serial start
      (saves + (primitive.opensFor index (answer.getD true)).toNat) := by
  cases hstep with
  | addTable =>
      obtain ⟨table, htable, hremembers⟩ := hkept
      have hindex := (List.getElem?_eq_some_iff.mp htable).1
      exact ⟨table, (List.getElem?_append_left hindex).trans htable, hremembers⟩
  | begin | reuse => exact hkept
  | close => exact hkept.filled rfl
  | terminal _ hattempt =>
      rw [opensFor_eq_false_of_attempt? hattempt]
      exact hkept
  | hit _ _ htable | pending _ _ htable =>
      simp only [Primitive.opensFor, Option.getD_some, Bool.not_true, Bool.and_false,
        Bool.toNat_false, Nat.add_zero]
      exact hkept.set htable (fun _ hold => hold.find _) (fun _ => rfl) rfl
  | @miss _ place _ table htable =>
      simp only [Primitive.opensFor, Option.getD_some, Bool.not_false, Bool.and_true] at hsaves ⊢
      refine hkept.set htable ?_ ?_ rfl
      · rintro rfl hold
        simp only [beq_self_eq_true, Bool.toNat_true] at hsaves ⊢
        rw [← hcapacity table (List.mem_of_getElem? htable)] at hsaves
        exact (hold.find _).save (by simpa using hsaves) _
      · intro hplace
        simp [hplace]

end Core

/-- What is done while a phrase stays open: no call closes the phrase at the given depth or one
around it, and `openings` of them open a phrase because a table had no result.  The fault of an
action does not end this, if it is caught. -/
inductive Meanwhile (setting : Setting Value) (depth index : Nat) :
    Machine Value → Nat → Machine Value → Prop where
  | done (machine : Machine Value) : Meanwhile setting depth index machine 0 machine
  | note {before after : Machine Value} {openings : Nat} (entry : JournalEntry Value)
      (hrest : Meanwhile setting depth index (before.note entry) openings after) :
      Meanwhile setting depth index before openings after
  | call {before between after : Machine Value} {primitive : Primitive}
      {answer : Option Bool} {openings : Nat}
      (hspared : ∀ closing, primitive = .close closing → depth < before.frames.length)
      (hperform : Machine.perform setting primitive before = .finished answer between)
      (hrest : Meanwhile setting depth index between openings after) :
      Meanwhile setting depth index before
        ((primitive.opensFor index (answer.getD true)).toNat + openings) after
  | caught {before between after : Machine Value} {primitive : Primitive} {cause : Fault}
      {openings : Nat}
      (hspared : ∀ closing, primitive = .close closing → depth < before.frames.length)
      (hperform : Machine.perform setting primitive before = .faulted cause between)
      (hrest : Meanwhile setting depth index between openings after) :
      Meanwhile setting depth index before openings after

theorem Course.meanwhile {depth : Nat} {before after : Machine Value}
    {calls : List (Call Value)} (hcourse : Course setting before calls after)
    (hspared : ∀ call ∈ calls, call.spares depth = true) (index : Nat) :
    Meanwhile setting depth index before (openings index calls) after := by
  induction hcourse with
  | done machine => exact .done machine
  | note entry _ ih => exact .note entry (ih hspared)
  | @call before between after primitive result calls htest hrest ih =>
      obtain ⟨hcall, hlater⟩ := List.forall_mem_cons.mp hspared
      obtain ⟨answer, hperform, rfl⟩ := Run.finished_of_map htest
      have hcount : openings index (⟨before, primitive, answer.getD true, between⟩ :: calls) =
          (primitive.opensFor index (answer.getD true)).toNat + openings index calls := by
        cases hopens : primitive.opensFor index (answer.getD true) <;>
          simp [openings, hopens, Nat.add_comm]
      rw [hcount]
      refine .call ?_ hperform (ih hlater)
      rintro closing rfl
      exact of_decide_eq_true hcall

namespace Meanwhile

variable {depth index openings : Nat} {before after : Machine Value}

theorem reachable (hmeanwhile : Meanwhile setting depth index before openings after)
    {intact : Bool} (hbefore : Machine.Reachable setting intact before) :
    ∃ left, Machine.Reachable setting left after := by
  induction hmeanwhile generalizing intact with
  | done => exact ⟨intact, hbefore⟩
  | note entry _ ih => exact ih (hbefore.note entry)
  | call _ hperform _ ih => exact ih (hbefore.perform hperform)
  | caught _ hperform _ ih => exact ih (hbefore.interrupted hperform)

/-- A phrase whose action faults lies inside the one that stays open. -/
theorem stack_over (hmeanwhile : Meanwhile setting depth index before openings after)
    {base : Stack Value} {opened : Frame Value} (hdepth : base.2.length + 1 = depth)
    (hover : Stack.Over base opened before.core.stack) :
    Stack.Over base opened after.core.stack := by
  induction hmeanwhile with
  | done => exact hover
  | note _ _ ih => exact ih hover
  | call hspared hperform _ ih =>
      apply ih ((Machine.step_of_perform hperform).over hover ?_)
      intro closing hclosing
      exact hdepth ▸ hspared closing hclosing
  | @caught before between _ _ _ _ hspared hperform _ ih =>
      apply ih
      rcases Machine.core_of_fault hperform with hcore | ⟨frame, outer, hclose, hframes, hcore⟩
      · rw [hcore]
        exact hover
      · have hdeep := hspared _ hclose
        rw [← hdepth, hframes, List.length_cons] at hdeep
        have hstack : Stack.Over base opened (before.top, frame :: outer) := by
          rw [← hframes]
          exact hover
        rw [hcore]
        exact hstack.pop (Nat.lt_of_succ_lt_succ hdeep)

/-- What is remembered stays, as long as the ring has not come round. -/
theorem remembers {serial start saves : Nat}
    (hmeanwhile : Meanwhile setting depth index before openings after) {intact : Bool}
    (hbefore : Machine.Reachable setting intact before)
    (hkept : before.core.Remembers index serial start saves)
    (hsaves : saves + openings < setting.capacity.value) :
    after.core.Remembers index serial start (saves + openings) := by
  induction hmeanwhile generalizing intact saves with
  | done => exact hkept
  | note entry _ ih => exact ih (hbefore.note entry) hkept hsaves
  | call _ hperform _ ih =>
      rw [← Nat.add_assoc] at hsaves ⊢
      have hcapacity := hbefore.coherence.length_slots
      exact ih (hbefore.perform hperform)
        ((Machine.step_of_perform hperform).remembers hcapacity hkept
          (Nat.lt_of_le_of_lt (Nat.le_add_right _ _) hsaves)) hsaves
  | caught _ hperform _ ih =>
      refine ih (hbefore.interrupted hperform) ?_ hsaves
      rcases Machine.core_of_fault hperform with hcore | ⟨_, _, _, _, hcore⟩ <;>
        exact hcore ▸ hkept

end Meanwhile

theorem Stack.Over.mem_tickets {base stack : Stack Value} {opened : Frame Value}
    {ticket : Ticket} (hover : Over base opened stack) (hticket : opened.ticket = some ticket) :
    ticket ∈ tickets stack.2 := by
  obtain ⟨inner, _⟩ := hover
  simp [tickets, hticket]

theorem Stack.length_changeInnermost (change : Phrase Value → Phrase Value)
    (stack : Stack Value) : (stack.changeInnermost change).2.length = stack.2.length := by
  obtain ⟨top, frames⟩ := stack
  cases frames <;> rfl

/-- A slot that waits for its result is found at its start, and no other slot is. -/
theorem MemoTable.Coherent.lookup_eq_pending {intact : Bool} {capacity : Nat}
    {isOpen : Nat → Prop} {table : MemoTable Value}
    (hcoherent : table.Coherent intact capacity isOpen) {slot : Slot Value}
    (hslot : slot ∈ table.occupied) (hresult : slot.result = none) :
    table.lookup slot.start = .pending := by
  cases hlookup : table.lookup slot.start with
  | miss => exact absurd rfl (start_ne_of_lookup_eq_miss hlookup hslot)
  | pending => rfl
  | hit part =>
      obtain ⟨other, hother, hstart, hpart⟩ := mem_of_lookup_eq_hit hlookup
      obtain rfl := List.inj_on_of_nodup_map hcoherent.starts_nodup hother hslot hstart
      rw [hresult] at hpart
      contradiction

namespace Machine

variable {before opened later : Machine Value} {index openings : Nat} {inner intact : Bool}

/-- A phrase that is opened for want of a result has a reservation that is remembered. -/
theorem remembers_of_miss (hbefore : Reachable setting intact before)
    (hopen : perform setting (.consult index inner) before = .finished (some false) opened)
    (hcapacity : 0 < setting.capacity.value) :
    ∃ serial phrase,
      opened.core.stack = (before.top, ⟨phrase, some ⟨index, serial⟩⟩ :: before.frames) ∧
        opened.core.Remembers index serial before.position 0 := by
  obtain ⟨table, htable, _, hcore⟩ := (step_of_perform hopen).eq_of_miss
  have hindex := (List.getElem?_eq_some_iff.mp htable).1
  have hslots : (table.find before.position).2.slots ≠ [] := by
    rw [MemoTable.slots_find, ← List.length_pos_iff,
      (hbefore.coherence.coherent index table htable).length_eq]
    exact hcapacity
  have hremembers := MemoTable.remembers_save hslots before.position
  rcases (table.find before.core.position).2.save_cases before.core.position with
    ⟨hnone, _⟩ | ⟨evicted, hnew, _⟩
  · exact absurd hnone hslots
  · refine ⟨_, .opened (if inner then "" else table.name) table.diagnosis before.position, ?_,
      _, ?_, hremembers⟩
    · rw [hcore]
      simp only [Core.opening, hnew, Option.map_some]
      rfl
    · rw [hcore]
      exact List.getElem?_set_self hindex

/-- Where a phrase has been opened that is still open, its slot is found without a
result. -/
theorem lookup_eq_pending_of_open (hbefore : Reachable setting intact before)
    (hopen : perform setting (.consult index inner) before = .finished (some false) opened)
    (hmeanwhile : Meanwhile setting opened.frames.length index opened openings later)
    (hopenings : openings < setting.capacity.value) :
    ∃ table, later.tables[index]? = some table ∧
      table.lookup before.position = .pending := by
  have hopened := hbefore.perform hopen
  obtain ⟨serial, phrase, hstack, hfresh⟩ :=
    remembers_of_miss hbefore hopen (Nat.zero_lt_of_lt hopenings)
  obtain ⟨table, htable, place, slot, hslot, hserial, hstart, _⟩ :=
    hmeanwhile.remembers hopened hfresh (by simpa using hopenings)
  have hdepth : before.frames.length + 1 = opened.frames.length :=
    (congrArg (fun stack : Stack Value => stack.2.length) hstack).symm
  have hover : Stack.Over (before.top, before.frames) ⟨phrase, some ⟨index, serial⟩⟩
      later.core.stack := by
    apply hmeanwhile.stack_over hdepth
    rw [hstack]
    exact .begun _ _
  obtain ⟨_, hlater⟩ := hmeanwhile.reachable hopened
  have hcoherent := hlater.coherence.coherent index table htable
  have hmember : slot ∈ table.occupied :=
    MemoTable.mem_occupied.mpr (List.mem_of_getElem? hslot)
  have hresult : slot.result = none := by
    apply hcoherent.pending_of_open slot hmember
    rw [hserial]
    exact hover.mem_tickets rfl
  exact ⟨table, htable, hstart ▸ hcoherent.lookup_eq_pending hmember hresult⟩

/-- A result that has failed is taken without moving the cursor. -/
theorem reuse_of_failed {machine : Machine Value} {part : Phrase Value}
    (hcandidate : machine.candidate = some part) (hfailed : part.success = false)
    (use : PhraseUse) :
    ∃ after, perform setting (.reuse use) machine = .finished (some false) after ∧
      after.position = machine.position ∧ after.frames.length = machine.frames.length := by
  obtain ⟨after, hreuse, hcore⟩ := reuse_of_candidate use hcandidate
  have hlanding : part.landing use machine.position = machine.position := by
    simp [Phrase.landing, hfailed]
  rw [hfailed] at hreuse
  refine ⟨after, Run.map_of_finished hreuse some, ?_, ?_⟩
  · exact (congrArg Core.position hcore).trans hlanding
  · have hframes := congrArg (fun core : Core Value => core.stack.2.length) hcore
    exact hframes.trans (Stack.length_changeInnermost _ _)

/-- Where a look-up finds its rule open, the rule fails on the spot. -/
theorem rule_fails_of_pending {machine : Machine Value} {table : MemoTable Value}
    {grammar : Grammar} {name : String} {rule : Rule}
    (htable : machine.tables[index]? = some table)
    (hlookup : table.lookup machine.position = .pending) (hrule : grammar.rule? name = some rule)
    (hindex : rule.table = some index) (steps : Nat) :
    ∃ after, grammar.evaluate setting (steps + 1) (.rule name) machine = .finished false after ∧
      after.position = machine.position ∧ after.frames.length = machine.frames.length := by
  obtain ⟨found, hconsult, hcore⟩ := consult_of_pending false htable hlookup
  obtain ⟨reused, hreuse, hposition, hlength⟩ :=
    reuse_of_failed (congrArg Core.candidate hcore) rfl .rule
  have htest : Grammar.test setting (.consult index false) machine = .finished true found :=
    Run.map_of_finished (Run.map_of_finished hconsult some) _
  have hrun : Grammar.ruleProcedure setting rule
      (.all (rule.body.map (grammar.evaluate setting steps))) machine = .finished false reused := by
    simp only [Grammar.ruleProcedure, hindex]
    rw [Run.andThen_of_finished htest, if_pos rfl]
    exact Run.map_of_finished hreuse _
  have hframes : found.frames = machine.frames :=
    congrArg (fun core : Core Value => core.stack.2) hcore
  refine ⟨reused.note (.rule name false machine.position reused.position), ?_,
    hposition.trans (congrArg Core.position hcore), hlength.trans (congrArg List.length hframes)⟩
  rw [Grammar.evaluate, hrule]
  exact Grammar.remarked_of_finished hrun name

/-- As long as a phrase that was opened for want of a result is open, its rule fails at the
same position without being opened once more, unless as many further phrases have been
opened for want of a result as the table has slots.  Whether actions have faulted, before or
meanwhile, makes no difference. -/
theorem reentry_fails_while_open (hbefore : Reachable setting intact before)
    (hopen : perform setting (.consult index inner) before = .finished (some false) opened)
    (hmeanwhile : Meanwhile setting opened.frames.length index opened openings later)
    (hopenings : openings < setting.capacity.value)
    (hposition : later.position = before.position) :
    (∀ again : Bool, ∃ table found, later.tables[index]? = some table ∧
      perform setting (.consult index again) later = .finished (some true) found ∧
      found.candidate =
        some (.opened (if again then "" else table.name) table.diagnosis later.position) ∧
      found.position = later.position ∧ found.top = later.top ∧ found.frames = later.frames ∧
      ∀ use, ∃ reused, perform setting (.reuse use) found = .finished (some false) reused ∧
        reused.position = later.position ∧ reused.frames.length = later.frames.length) ∧
    ∀ (grammar : Grammar) (name : String) (rule : Rule) (steps : Nat),
      grammar.rule? name = some rule → rule.table = some index →
        ∃ after,
          grammar.evaluate setting (steps + 1) (.rule name) later = .finished false after ∧
            after.position = later.position ∧ after.frames.length = later.frames.length := by
  obtain ⟨table, htable, hlookup⟩ :=
    lookup_eq_pending_of_open hbefore hopen hmeanwhile hopenings
  rw [← hposition] at hlookup
  constructor
  · intro again
    obtain ⟨found, hconsult, hcore⟩ := consult_of_pending again htable hlookup
    have hcandidate := congrArg Core.candidate hcore
    have hfound := congrArg Core.position hcore
    obtain ⟨htop, hframes⟩ := Prod.mk.inj (congrArg Core.stack hcore)
    refine ⟨table, found, htable, Run.map_of_finished hconsult some, hcandidate, hfound, htop,
      hframes, ?_⟩
    intro use
    obtain ⟨reused, hreuse, hreused, hlength⟩ := reuse_of_failed hcandidate rfl use
    exact ⟨reused, hreuse, hreused.trans hfound, hlength.trans (congrArg List.length hframes)⟩
  · intro grammar name rule steps hrule hindex
    exact rule_fails_of_pending htable hlookup hrule hindex steps

/-- With two slots, the rule may be tried once elsewhere in the meantime. -/
theorem reentry_fails_while_open_letters :
    let setting : Setting Nat := ⟨.ofText "aa", .empty, ⟨2, by decide⟩⟩
    let before := (Machine.initial.addTable setting "letters" "").start setting
    let body : Procedure Nat :=
      .ofPrimitives
        [.begin "" "", .next (.character 'a'), .consult 0 false, .close .reject,
          .close .rejectInner]
    ∃ opened matched later found,
      perform setting (.consult 0 false) before = .finished (some false) opened ∧
        body.run setting opened = .finished matched later ∧ later.position = before.position ∧
          perform setting (.consult 0 false) later = .finished (some true) found ∧
            found.frames = later.frames := by
  intro setting before body
  have hmiss : (perform setting (.consult 0 false) before).FinishesWith fun result opened =>
      result = some false ∧
        (∀ call ∈ body.calls setting opened, call.spares opened.frames.length = true) ∧
          Course.openings 0 (body.calls setting opened) < setting.capacity.value ∧
            (body.run setting opened).FinishesWith fun _ later =>
              later.position = before.position := by
    decide +kernel
  obtain ⟨_, opened, hopen, rfl, hspared, hopenings, hreturns⟩ := hmiss.exists_eq
  obtain ⟨matched, later, hrun, hposition⟩ := hreturns.exists_eq
  have hadded : perform setting (.addTable "letters" "") .initial =
      .finished none (Machine.initial.addTable setting "letters" "") := rfl
  have hbefore : Reachable setting true before := .start (.perform .initial hadded)
  have hmeanwhile := (Procedure.course_of_finished hrun).meanwhile hspared 0
  obtain ⟨hfails, _⟩ := reentry_fails_while_open hbefore hopen hmeanwhile hopenings hposition
  obtain ⟨_, found, _, hfound, _, _, _, hframes, _⟩ := hfails false
  exact ⟨opened, matched, later, found, hopen, hrun, hposition, hfound, hframes⟩

/-- With one slot, trying the rule elsewhere makes it forget where it is open. -/
theorem reentry_opens_again :
    let setting : Setting Nat := ⟨.ofText "aa", .empty, ⟨1, by decide⟩⟩
    let before := (Machine.initial.addTable setting "letters" "").start setting
    let body : Procedure Nat :=
      .ofPrimitives
        [.begin "" "", .next (.character 'a'), .consult 0 false, .close .reject,
          .close .rejectInner]
    ∃ opened matched later again,
      perform setting (.consult 0 false) before = .finished (some false) opened ∧
        body.run setting opened = .finished matched later ∧
          (∀ call ∈ body.calls setting opened, call.spares opened.frames.length = true) ∧
            later.position = before.position ∧
              perform setting (.consult 0 false) later = .finished (some false) again ∧
                again.frames.length = later.frames.length + 1 := by
  intro setting before body
  have hmiss : (perform setting (.consult 0 false) before).FinishesWith fun result opened =>
      result = some false ∧
        (∀ call ∈ body.calls setting opened, call.spares opened.frames.length = true) ∧
          (body.run setting opened).FinishesWith fun _ later =>
            later.position = before.position ∧
              (perform setting (.consult 0 false) later).FinishesWith fun found again =>
                found = some false ∧ again.frames.length = later.frames.length + 1 := by
    decide +kernel
  obtain ⟨_, opened, hopen, rfl, hspared, hreturns⟩ := hmiss.exists_eq
  obtain ⟨matched, later, hrun, hposition, hreopens⟩ := hreturns.exists_eq
  obtain ⟨_, again, hagain, rfl, hdeeper⟩ := hreopens.exists_eq
  exact ⟨opened, matched, later, again, hopen, hrun, hspared, hposition, hagain, hdeeper⟩

end Machine

end Packrat
