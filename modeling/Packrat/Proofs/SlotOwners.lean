import Packrat.Proofs.Coherence
import Packrat.Proofs.Reachable

/-!
# The owner of a slot

In every session, whatever primitives it calls, each slot that waits for a result has one
open phrase that will fill it, and that phrase starts where the slot says.  So a result
that is found belongs to the cursor, and a rule that is found to be open is open there.
Only the fault of an action breaks this, until the next reset: its slot is left without an
owner.
-/

namespace Packrat

variable {Value : Type} {setting : Setting Value}

/-- Every step keeps the tables coherent with the open phrases. -/
theorem Core.Step.coherence {intact : Bool} {primitive : Primitive} {before after : Core Value}
    {answer : Option Bool} (hstep : Core.Step setting primitive before answer after)
    (hcoherence : Coherence intact setting.capacity.value before.stack.2 before.tables) :
    Coherence intact setting.capacity.value after.stack.2 after.tables := by
  cases hstep with
  | addTable _ name diagnosis => exact hcoherence.append_empty name diagnosis
  | begin => exact hcoherence.push
  | close _ hframes hpart =>
      rw [hframes] at hcoherence
      exact (hcoherence.filled (Closing.storedAt_of_settled? hpart)).changeInnermost _
        fun phrase => Phrase.start_absorb _ _ phrase _
  | terminal => exact hcoherence.changeInnermost _ fun _ => rfl
  | hit _ _ htable | pending _ _ htable => exact hcoherence.find htable _
  | miss _ _ htable hlookup => exact hcoherence.reserve htable hlookup _ _
  | reuse => exact hcoherence.changeInnermost _ fun phrase => Phrase.start_absorb _ _ phrase _

namespace Stack

/-- The open phrases that are to fill the slot of a ticket. -/
def owners (ticket : Ticket) (frames : List (Frame Value)) : List (Frame Value) :=
  frames.filter fun frame => frame.ticket = some ticket

variable {ticket : Ticket} {frames : List (Frame Value)}

theorem owners_eq_nil_iff : owners ticket frames = [] ↔ ticket ∉ tickets frames := by
  simp [owners, tickets, List.filter_eq_nil_iff]

/-- Where all tickets are different, each has one owner. -/
theorem owners_eq_singleton (hnodup : (tickets frames).Nodup) (hmember : ticket ∈ tickets frames) :
    ∃ frame ∈ frames, frame.ticket = some ticket ∧ owners ticket frames = [frame] := by
  obtain ⟨frame, hframe, hticket⟩ := List.mem_filterMap.mp hmember
  obtain ⟨inner, outer, rfl⟩ := List.append_of_mem hframe
  have hsplit : tickets (inner ++ frame :: outer) = tickets inner ++ ticket :: tickets outer := by
    simp [tickets, hticket]
  rw [hsplit, List.perm_middle.nodup_iff, List.nodup_cons, List.mem_append, not_or] at hnodup
  obtain ⟨⟨hinner, houter⟩, _⟩ := hnodup
  refine ⟨frame, hframe, hticket, ?_⟩
  rw [← owners_eq_nil_iff] at hinner houter
  simp only [owners] at hinner houter ⊢
  rw [List.filter_append, hinner, List.filter_cons_of_pos (by simpa using hticket), houter,
    List.nil_append]

end Stack

namespace Machine

variable {machine : Machine Value}

theorem start_coherence (setting : Setting Value) (machine : Machine Value) :
    Coherence true setting.capacity.value (machine.start setting).frames
      (machine.start setting).tables := by
  apply Coherence.of_reset
  intro table htable
  obtain ⟨old, _, rfl⟩ := List.mem_map.mp htable
  exact ⟨old.name, old.diagnosis, rfl⟩

/-- The phrase whose action faults is abandoned. -/
theorem coherence_of_fault {intact : Bool} {before after : Machine Value}
    {primitive : Primitive} {cause : Fault}
    (hperform : perform setting primitive before = .faulted cause after)
    (hcoherence : Coherence intact setting.capacity.value before.frames before.tables) :
    Coherence false setting.capacity.value after.frames after.tables := by
  show Coherence false setting.capacity.value after.core.stack.2 after.core.tables
  rcases core_of_fault hperform with hcore | ⟨_, _, _, hframes, hcore⟩
  · rw [hcore]
    exact hcoherence.forget
  · rw [hcore]
    rw [hframes] at hcoherence
    exact hcoherence.abandon

theorem Reachable.coherence {intact : Bool} (hreachable : Reachable setting intact machine) :
    Coherence intact setting.capacity.value machine.frames machine.tables := by
  induction hreachable with
  | initial => exact .of_reset _ _ nofun
  | note _ _ ih => exact ih
  | perform _ hperform ih => exact (step_of_perform hperform).coherence ih
  | interrupted _ hperform ih => exact coherence_of_fault hperform ih
  | start => exact start_coherence setting _
  | @concluded _ _ before after _ hconclude ih =>
      have hkept : after.frames = before.frames ∧ after.tables = before.tables := by
        rcases core_of_conclude hconclude with hcore | hcore <;>
          exact ⟨congrArg (fun core : Core Value => core.stack.2) hcore,
            congrArg Core.tables hcore⟩
      rw [hkept.1, hkept.2]
      exact ih

section

variable {capacity index : Nat} {table : MemoTable Value} {slot : Slot Value}

/-- A slot without a result has one owner, which starts where the slot does. -/
theorem owners_of_result_eq_none
    (hcoherence : Coherence true capacity machine.frames machine.tables)
    (htable : machine.tables[index]? = some table) (hslot : slot ∈ table.occupied)
    (hresult : slot.result = none) :
    ∃ frame ∈ machine.frames, frame.ticket = some ⟨index, slot.serial⟩ ∧
      frame.phrase.start = slot.start ∧
        Stack.owners ⟨index, slot.serial⟩ machine.frames = [frame] := by
  have hmember :=
    (hcoherence.coherent index table htable).open_of_pending rfl slot hslot hresult
  obtain ⟨frame, hframe, hticket, howners⟩ :=
    Stack.owners_eq_singleton hcoherence.tickets_nodup hmember
  obtain ⟨other, hother, _, hstart⟩ := hcoherence.ledger.reserved frame hframe _ hticket
  obtain rfl := Option.some.inj (htable.symm.trans hother)
  exact ⟨frame, hframe, hticket, (hstart slot hslot rfl).symm, howners⟩

/-- A slot with a result has no owner any more. -/
theorem owners_of_result_eq_some {part : Phrase Value}
    (hcoherence : Coherence true capacity machine.frames machine.tables)
    (htable : machine.tables[index]? = some table) (hslot : slot ∈ table.occupied)
    (hresult : slot.result = some part) :
    Stack.owners ⟨index, slot.serial⟩ machine.frames = [] := by
  rw [Stack.owners_eq_nil_iff]
  intro hticket
  have hpending := (hcoherence.coherent index table htable).pending_of_open slot hslot hticket
  rw [hresult] at hpending
  contradiction

/-- As long as no action has faulted, every slot of every table is in order, and what a
look-up finds at the cursor starts there. -/
theorem slots_owned_of_reachable (hreachable : Reachable setting true machine)
    (htable : machine.tables[index]? = some table) :
    table.slots.length = setting.capacity.value ∧
      (table.occupied.map Slot.start).Nodup ∧ (table.occupied.map Slot.serial).Nodup ∧
      (∀ slot ∈ table.occupied, slot.serial ≤ table.serial ∧
        match slot.result with
        | none =>
            ∃ frame, Stack.owners ⟨index, slot.serial⟩ machine.frames = [frame] ∧
              frame.phrase.start = slot.start
        | some part =>
            Stack.owners ⟨index, slot.serial⟩ machine.frames = [] ∧ part.start = slot.start ∧
              (part.success = false → part.stop = part.start ∧ part.children = [])) ∧
      match (table.find machine.position).1 with
      | .miss => True
      | .pending =>
          ∃ frame ∈ machine.frames, frame.phrase.start = machine.position ∧
            ∃ serial, frame.ticket = some ⟨index, serial⟩
      | .hit part => part.start = machine.position := by
  have hcoherence := hreachable.coherence
  have hcoherent := hcoherence.coherent index table htable
  have hholds := hcoherence.ledger.holds index table htable
  refine ⟨hcoherent.length_eq, hcoherent.starts_nodup, hcoherent.serials_nodup, ?_, ?_⟩
  · intro slot hslot
    refine ⟨hholds.serial_le slot hslot, ?_⟩
    cases hresult : slot.result with
    | none =>
        obtain ⟨frame, _, _, hstart, howners⟩ :=
          owners_of_result_eq_none hcoherence htable hslot hresult
        exact ⟨frame, howners, hstart⟩
    | some part =>
        have hstored := hholds.result slot hslot part hresult
        refine ⟨owners_of_result_eq_some hcoherence htable hslot hresult, hstored.start_eq, ?_⟩
        intro hfailed
        exact ⟨(hstored.stop_eq hfailed).trans hstored.start_eq.symm,
          hstored.children_eq hfailed⟩
  · rw [MemoTable.find_fst]
    cases hlookup : table.lookup machine.position with
    | miss => trivial
    | pending =>
        obtain ⟨slot, hslot, hstart, hresult⟩ := MemoTable.mem_of_lookup_eq_pending hlookup
        obtain ⟨frame, hframe, hticket, hopened, _⟩ :=
          owners_of_result_eq_none hcoherence htable hslot hresult
        exact ⟨frame, hframe, hopened.trans hstart, slot.serial, hticket⟩
    | hit part => exact (hholds.good_of_lookup hlookup).start_eq

end

/-- One letter has been matched and stored, and the next one is still open. -/
theorem slots_owned_of_reachable_letter :
    let setting : Setting Nat := ⟨.ofText "aa", .empty, ⟨2, by decide⟩⟩
    let machine := (Machine.initial.addTable setting "letter" "a letter").start setting
    let calls : Procedure Nat :=
      .ofPrimitives
        [.consult 0 false, .next (.character 'a'), .close .accept, .consult 0 false]
    ∃ matched later table, calls.run setting machine = .finished matched later ∧
      later.tables[0]? = some table ∧ table.occupied.length = 2 ∧
        ∀ slot ∈ table.occupied,
          match slot.result with
          | none =>
              ∃ frame, Stack.owners ⟨0, slot.serial⟩ later.frames = [frame] ∧
                frame.phrase.start = slot.start
          | some part =>
              Stack.owners ⟨0, slot.serial⟩ later.frames = [] ∧ part.start = slot.start := by
  intro setting machine calls
  have hslots : (calls.run setting machine).FinishesWith fun _ later =>
      later.tables[0]?.map (fun table => table.occupied.length) = some 2 := by
    decide +kernel
  obtain ⟨matched, later, hrun, htables⟩ := hslots.exists_eq
  obtain ⟨table, htable, hlength⟩ := Option.map_eq_some_iff.mp htables
  have hadded : perform setting (.addTable "letter" "a letter") .initial =
      .finished none (Machine.initial.addTable setting "letter" "a letter") := rfl
  have hmachine : Reachable setting true machine := .start (.perform .initial hadded)
  have hlater := hmachine.of_course (Procedure.course_of_finished hrun)
  obtain ⟨_, _, _, howned, _⟩ := slots_owned_of_reachable hlater htable
  refine ⟨matched, later, table, hrun, htable, hlength, ?_⟩
  intro slot hslot
  have hslotOwned := (howned slot hslot).2
  cases hresult : slot.result with
  | none =>
      rw [hresult] at hslotOwned
      exact hslotOwned
  | some part =>
      rw [hresult] at hslotOwned
      exact ⟨hslotOwned.1, hslotOwned.2.1⟩

end Machine

end Packrat
