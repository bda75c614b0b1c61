import Packrat.Proofs.Ledger

/-!
# Open phrases and unfinished slots

A slot is reserved when a phrase is opened and filled when it is closed, so the slots
without a result belong to open phrases.  The converse need not hold: the slot of an open
phrase may have been taken by a later one.  No two slots of a table are for the same
position, since a slot is reserved only where a look-up has found none.

When an action has faulted, its phrase is no longer open and its slot waits for ever.  The
slots of open phrases wait even then, but not they alone.
-/

namespace Packrat

variable {Value : Type}

/-- A phrase that may stand in a slot for results at `start`. -/
structure Phrase.StoredAt (start : Nat) (part : Phrase Value) : Prop where
  start_eq : part.start = start
  stop_eq : part.success = false → part.stop = start
  children_eq : part.success = false → part.children = []

theorem Closing.storedAt_of_settled? {closing : Closing} {source : Source}
    {semantics : Semantics Value} {cursor : Nat} {phrase part : Phrase Value}
    (hpart : closing.settled? source semantics cursor phrase = .ok part) :
    part.StoredAt phrase.start := by
  rw [eq_of_settled? hpart]
  cases closing <;> constructor <;> simp [settle, succeeds, consumes]

/-- The reservations that the open phrases will fill. -/
def Stack.tickets (frames : List (Frame Value)) : List Ticket :=
  frames.filterMap Frame.ticket

theorem Stack.tickets_cons (phrase : Phrase Value) (ticket : Ticket)
    (outer : List (Frame Value)) :
    tickets (⟨phrase, some ticket⟩ :: outer) = ticket :: tickets outer := rfl

theorem Stack.tickets_changeInnermost (change : Phrase Value → Phrase Value)
    (stack : Stack Value) : tickets (stack.changeInnermost change).2 = tickets stack.2 := by
  obtain ⟨top, frames⟩ := stack
  cases frames <;> rfl

/-! ## One table -/

namespace MemoTable

/-- The slots whose phrase is open wait for a result, and no others do as long as the table
is intact. -/
structure Coherent (intact : Bool) (capacity : Nat) (isOpen : Nat → Prop)
    (table : MemoTable Value) : Prop where
  length_eq : table.slots.length = capacity
  starts_nodup : (table.occupied.map Slot.start).Nodup
  serials_nodup : (table.occupied.map Slot.serial).Nodup
  pending_of_open : ∀ slot ∈ table.occupied, isOpen slot.serial → slot.result = none
  open_of_pending : intact = true →
    ∀ slot ∈ table.occupied, slot.result = none → isOpen slot.serial

variable {intact : Bool} {capacity : Nat} {isOpen isOpen' : Nat → Prop}
variable {table : MemoTable Value}

theorem Coherent.empty (intact : Bool) (name diagnosis : String) (capacity : Nat)
    (isOpen : Nat → Prop) :
    (empty name diagnosis capacity : MemoTable Value).Coherent intact capacity isOpen where
  length_eq := List.length_replicate
  starts_nodup := by simp
  serials_nodup := by simp
  pending_of_open := by simp
  open_of_pending := by simp

/-- Only the serial numbers that occur in the table matter. -/
theorem Coherent.congr (hcoherent : table.Coherent intact capacity isOpen)
    (hopen : ∀ slot ∈ table.occupied, isOpen slot.serial ↔ isOpen' slot.serial) :
    table.Coherent intact capacity isOpen' where
  length_eq := hcoherent.length_eq
  starts_nodup := hcoherent.starts_nodup
  serials_nodup := hcoherent.serials_nodup
  pending_of_open slot hslot hopen' :=
    hcoherent.pending_of_open slot hslot ((hopen slot hslot).mpr hopen')
  open_of_pending hintact slot hslot hresult :=
    (hopen slot hslot).mp (hcoherent.open_of_pending hintact slot hslot hresult)

/-- With fewer phrases open, the table need no longer be intact. -/
theorem Coherent.forget (hcoherent : table.Coherent intact capacity isOpen)
    (hopen : ∀ serial, isOpen' serial → isOpen serial) :
    table.Coherent false capacity isOpen' where
  length_eq := hcoherent.length_eq
  starts_nodup := hcoherent.starts_nodup
  serials_nodup := hcoherent.serials_nodup
  pending_of_open slot hslot hopen' := hcoherent.pending_of_open slot hslot (hopen _ hopen')
  open_of_pending := nofun

theorem Coherent.find (hcoherent : table.Coherent intact capacity isOpen) (position : Nat) :
    (table.find position).2.Coherent intact capacity isOpen where
  length_eq := by simpa only [slots_find] using hcoherent.length_eq
  starts_nodup := by simpa only [occupied_find] using hcoherent.starts_nodup
  serials_nodup := by simpa only [occupied_find] using hcoherent.serials_nodup
  pending_of_open := by simpa only [occupied_find] using hcoherent.pending_of_open
  open_of_pending := by simpa only [occupied_find] using hcoherent.open_of_pending

theorem start_ne_of_lookup_eq_miss {position : Nat} (hlookup : table.lookup position = .miss)
    {slot : Slot Value} (hslot : slot ∈ table.occupied) : slot.start ≠ position := by
  intro hstart
  simp only [lookup] at hlookup
  cases hfound : table.occupied.find? (·.start == position) with
  | none => simpa [hstart] using List.find?_eq_none.mp hfound slot hslot
  | some other =>
      cases hresult : other.result <;> simp [hfound, hresult] at hlookup

/-- A value that is new to the slots can be added. -/
theorem nodup_map_of_perm_cons {Key : Type} {key : Slot Value → Key}
    {slots kept slots' : List (Slot Value)} {new : Slot Value}
    (hperm : slots'.Perm (new :: kept)) (hkept : kept.Sublist slots)
    (hnodup : (slots.map key).Nodup) (hnew : ∀ slot ∈ slots, key slot ≠ key new) :
    (slots'.map key).Nodup := by
  rw [(hperm.map key).nodup_iff, List.map_cons, List.nodup_cons]
  constructor
  · intro hmember
    obtain ⟨slot, hslot, hkey⟩ := List.mem_map.mp hmember
    exact hnew slot (hkept.subset hslot) hkey
  · exact hnodup.sublist (hkept.map key)

theorem Coherent.save (hcoherent : table.Coherent intact capacity isOpen)
    (hserial : ∀ slot ∈ table.occupied, slot.serial ≤ table.serial) {position : Nat}
    (hlookup : table.lookup position = .miss) :
    (table.save position).2.Coherent intact capacity fun serial =>
      serial = table.serial + 1 ∨ isOpen serial := by
  have hfresh : ∀ slot ∈ table.occupied, slot.serial ≠ table.serial + 1 := by
    intro slot hslot
    exact Nat.ne_of_lt (Nat.lt_succ_of_le (hserial slot hslot))
  by_cases hslots : table.slots = []
  · have hsave : (table.save position).2 = table := by simp [MemoTable.save, hslots]
    rw [hsave]
    apply hcoherent.congr
    intro slot hslot
    simp [occupied, hslots] at hslot
  · obtain ⟨kept, hkept, hperm⟩ := occupied_save hslots position
    constructor
    · rw [length_slots_save, hcoherent.length_eq]
    · exact nodup_map_of_perm_cons hperm hkept hcoherent.starts_nodup
        fun slot hslot => start_ne_of_lookup_eq_miss hlookup hslot
    · exact nodup_map_of_perm_cons hperm hkept hcoherent.serials_nodup hfresh
    · intro slot hslot hopen
      rcases List.mem_cons.mp (hperm.mem_iff.mp hslot) with rfl | hold
      · rfl
      · have hmember := hkept.subset hold
        exact hcoherent.pending_of_open slot hmember (hopen.resolve_left (hfresh slot hmember))
    · intro hintact slot hslot hresult
      rcases List.mem_cons.mp (hperm.mem_iff.mp hslot) with rfl | hold
      · exact .inl rfl
      · exact .inr (hcoherent.open_of_pending hintact slot (hkept.subset hold) hresult)

/-- Filling a slot changes neither its start nor its serial number. -/
theorem map_occupied_fill {Key : Type} {key : Slot Value → Key}
    (hkey : ∀ slot result, key { slot with result := result } = key slot) (serial : Nat)
    (part : Phrase Value) :
    (table.fill serial part).occupied.map key = table.occupied.map key := by
  rw [occupied_fill, List.map_map]
  apply List.map_congr_left
  intro slot _
  simp only [Function.comp_apply]
  split
  · exact hkey slot _
  · rfl

theorem Coherent.fill (hcoherent : table.Coherent intact capacity isOpen) (serial : Nat)
    (part : Phrase Value) :
    (table.fill serial part).Coherent intact capacity
      fun other => other ≠ serial ∧ isOpen other where
  length_eq := by rw [length_slots_fill, hcoherent.length_eq]
  starts_nodup := by
    rw [map_occupied_fill fun _ _ => rfl]
    exact hcoherent.starts_nodup
  serials_nodup := by
    rw [map_occupied_fill fun _ _ => rfl]
    exact hcoherent.serials_nodup
  pending_of_open slot hslot hopen := by
    rcases mem_occupied_fill hslot with ⟨hkept, _⟩ | ⟨old, _, hserial, rfl⟩
    · exact hcoherent.pending_of_open slot hkept hopen.2
    · exact absurd hserial hopen.1
  open_of_pending hintact slot hslot hresult := by
    rcases mem_occupied_fill hslot with ⟨hkept, hserial⟩ | ⟨old, _, _, rfl⟩
    · exact ⟨hserial, hcoherent.open_of_pending hintact slot hkept hresult⟩
    · contradiction

end MemoTable

/-! ## All tables and all open phrases -/

/-- The tables are coherent with the tickets of the open phrases, which are all different. -/
structure Coherence (intact : Bool) (capacity : Nat) (frames : List (Frame Value))
    (tables : List (MemoTable Value)) : Prop where
  ledger : Ledger (fun _ => Phrase.StoredAt) frames tables
  tickets_nodup : (Stack.tickets frames).Nodup
  coherent : ∀ (index : Nat) (table : MemoTable Value), tables[index]? = some table →
    table.Coherent intact capacity fun serial => ⟨index, serial⟩ ∈ Stack.tickets frames

namespace Coherence

variable {intact : Bool} {capacity : Nat} {frames outer : List (Frame Value)} {frame : Frame Value}
variable {tables : List (MemoTable Value)} {index : Nat} {table : MemoTable Value}

theorem of_reset (intact : Bool) (capacity : Nat)
    (htables : ∀ table ∈ tables, ∃ name diagnosis, table = .empty name diagnosis capacity) :
    Coherence intact capacity ([] : List (Frame Value)) tables where
  ledger := by
    apply Ledger.of_occupied_eq_nil
    intro table htable
    obtain ⟨name, diagnosis, rfl⟩ := htables table htable
    exact MemoTable.occupied_empty name diagnosis capacity
  tickets_nodup := List.nodup_nil
  coherent index table htable := by
    obtain ⟨name, diagnosis, rfl⟩ := htables table (List.mem_of_getElem? htable)
    exact .empty intact name diagnosis capacity _

/-- The phrases themselves do not matter, as long as they start where they did. -/
theorem changeInnermost (hcoherence : Coherence intact capacity frames tables) (top : Phrase Value)
    {change : Phrase Value → Phrase Value}
    (hstart : ∀ phrase, (change phrase).start = phrase.start) :
    Coherence intact capacity (Stack.changeInnermost change (top, frames)).2 tables where
  ledger := hcoherence.ledger.changeInnermost hstart
  tickets_nodup := by
    rw [Stack.tickets_changeInnermost]
    exact hcoherence.tickets_nodup
  coherent := by
    rw [Stack.tickets_changeInnermost]
    exact hcoherence.coherent

theorem push (hcoherence : Coherence intact capacity frames tables) {phrase : Phrase Value} :
    Coherence intact capacity (⟨phrase, none⟩ :: frames) tables where
  ledger := hcoherence.ledger.push nofun
  tickets_nodup := hcoherence.tickets_nodup
  coherent := hcoherence.coherent

theorem append_empty (hcoherence : Coherence intact capacity frames tables)
    (name diagnosis : String) :
    Coherence intact capacity frames (tables ++ [.empty name diagnosis capacity]) where
  ledger := hcoherence.ledger.append_empty (MemoTable.occupied_empty name diagnosis capacity)
  tickets_nodup := hcoherence.tickets_nodup
  coherent index table htable := by
    by_cases hindex : index < tables.length
    · rw [List.getElem?_append_left hindex] at htable
      exact hcoherence.coherent index table htable
    · rw [List.getElem?_append_right (Nat.not_lt.mp hindex)] at htable
      obtain rfl := List.mem_singleton.mp (List.mem_of_getElem? htable)
      exact .empty intact name diagnosis capacity _

theorem find (hcoherence : Coherence intact capacity frames tables)
    (htable : tables[index]? = some table) (position : Nat) :
    Coherence intact capacity frames (tables.set index (table.find position).2) where
  ledger := hcoherence.ledger.find htable position
  tickets_nodup := hcoherence.tickets_nodup
  coherent place other hother := by
    rcases MemoTable.getElem?_set_cases hother with ⟨rfl, rfl⟩ | ⟨_, hsame⟩
    · exact (hcoherence.coherent place table htable).find position
    · exact hcoherence.coherent place other hsame

theorem length_slots (hcoherence : Coherence intact capacity frames tables) :
    ∀ table ∈ tables, table.slots.length = capacity := by
  intro table htable
  obtain ⟨index, hindex⟩ := List.getElem?_of_mem htable
  exact (hcoherence.coherent index table hindex).length_eq

theorem forget (hcoherence : Coherence intact capacity frames tables) :
    Coherence false capacity frames tables where
  ledger := hcoherence.ledger
  tickets_nodup := hcoherence.tickets_nodup
  coherent index table htable := (hcoherence.coherent index table htable).forget fun _ => id

/-- A phrase leaves the stack without having been closed. -/
theorem abandon (hcoherence : Coherence intact capacity (frame :: outer) tables) :
    Coherence false capacity outer tables := by
  have hsublist : (Stack.tickets outer).Sublist (Stack.tickets (frame :: outer)) :=
    (List.sublist_cons_self frame outer).filterMap _
  refine ⟨hcoherence.ledger.pop, hcoherence.tickets_nodup.sublist hsublist, ?_⟩
  intro index table htable
  exact (hcoherence.coherent index table htable).forget fun _ hticket => hsublist.subset hticket

/-- A phrase that is closed is stored in the slot that is its own, if that is still there. -/
theorem filled {ticket : Option Ticket} {phrase part : Phrase Value}
    (hcoherence : Coherence intact capacity (⟨phrase, ticket⟩ :: outer) tables)
    (hpart : part.StoredAt phrase.start) :
    Coherence intact capacity outer (Machine.filled ticket part tables) := by
  have hledger := hcoherence.ledger.filled fun _ _ => hpart
  cases ticket with
  | none => exact ⟨hledger, hcoherence.tickets_nodup, hcoherence.coherent⟩
  | some ticket =>
      obtain ⟨hown, houter⟩ := List.nodup_cons.mp hcoherence.tickets_nodup
      obtain ⟨table, htable, _⟩ := hcoherence.ledger.reserved _ List.mem_cons_self ticket rfl
      refine ⟨hledger, houter, ?_⟩
      intro place other hother
      simp only [Machine.filled, MemoTable.modify_eq_set_of_getElem? _ htable] at hother
      rcases MemoTable.getElem?_set_cases hother with ⟨rfl, rfl⟩ | ⟨hplace, hsame⟩
      · apply ((hcoherence.coherent ticket.table table htable).fill ticket.serial part).congr
        intro slot _
        rw [Stack.tickets_cons, List.mem_cons]
        constructor
        · rintro ⟨hserial, hticket | hmember⟩
          · exact absurd (congrArg Ticket.serial hticket) hserial
          · exact hmember
        · intro hmember
          refine ⟨?_, .inr hmember⟩
          rintro hserial
          rw [hserial] at hmember
          exact hown hmember
      · apply (hcoherence.coherent place other hsame).congr
        intro slot _
        rw [Stack.tickets_cons, List.mem_cons, or_iff_right]
        intro hticket
        exact hplace (congrArg Ticket.table hticket)

/-- A ticket that is yet to be given out is not among those of the open phrases. -/
theorem not_mem_tickets (hcoherence : Coherence intact capacity frames tables)
    (htable : tables[index]? = some table) :
    ⟨index, table.serial + 1⟩ ∉ Stack.tickets frames := by
  intro hmember
  obtain ⟨frame, hframe, hticket⟩ := List.mem_filterMap.mp hmember
  obtain ⟨other, hother, hserial, _⟩ := hcoherence.ledger.reserved frame hframe _ hticket
  obtain rfl := Option.some.inj (htable.symm.trans hother)
  exact Nat.not_succ_le_self _ hserial

/-- A phrase that is opened for want of a result has a slot of its own. -/
theorem reserve (hcoherence : Coherence intact capacity frames tables)
    (htable : tables[index]? = some table) {position : Nat}
    (hlookup : table.lookup position = .miss) (name diagnosis : String) :
    let saved := (table.find position).2.save position
    Coherence intact capacity
      (⟨.opened name diagnosis position,
        saved.1.map fun reservation => ⟨index, reservation.serial⟩⟩ :: frames)
      (tables.set index saved.2) := by
  intro saved
  have hserial : (table.find position).2.serial = table.serial := table.serial_find position
  rcases (table.find position).2.save_cases position with ⟨_, hsave⟩ | ⟨evicted, hnew, _⟩
  · simp only [saved, hsave, Option.map_none]
    exact (hcoherence.find htable position).push
  · have hmiss : (table.find position).2.lookup position = .miss := by
      rw [MemoTable.lookup_find, hlookup]
    have hholds := (hcoherence.ledger.holds index table htable).find position
    have hsaved :=
      ((hcoherence.coherent index table htable).find position).save hholds.serial_le hmiss
    rw [hserial] at hnew hsaved
    constructor
    · exact (hcoherence.ledger.save htable position).push
        fun _ hticket => hcoherence.ledger.reservedAt_save htable hticket
    · simp only [saved, hnew, Option.map_some, Stack.tickets_cons]
      exact List.nodup_cons.mpr ⟨hcoherence.not_mem_tickets htable, hcoherence.tickets_nodup⟩
    · intro place other hother
      simp only [saved, hnew, Option.map_some, Stack.tickets_cons, List.mem_cons]
      rcases MemoTable.getElem?_set_cases hother with ⟨rfl, rfl⟩ | ⟨hplace, hsame⟩
      · apply hsaved.congr
        intro slot _
        simp
      · apply (hcoherence.coherent place other hsame).congr
        intro slot _
        simp [hplace]

end Coherence

end Packrat
