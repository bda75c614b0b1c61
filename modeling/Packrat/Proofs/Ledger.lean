import Packrat.Proofs.Core

/-!
# Stored results and open reservations

A stored phrase is handed on wherever its table is asked at the position of the slot, so
what matters of it is stated for that position.  The phrase that will fill a slot is still
open and is known by its ticket alone, so each ticket has to lead to a reservation at the
start of its phrase.  Which results are good is a parameter.
-/

namespace Packrat

variable {Value : Type}

/-! ## One table -/

namespace MemoTable

/-- Serial numbers have been given out, and every result is good where it will be found. -/
structure Holds (good : Nat → Phrase Value → Prop) (table : MemoTable Value) : Prop where
  serial_le : ∀ slot ∈ table.occupied, slot.serial ≤ table.serial
  result : ∀ slot ∈ table.occupied, ∀ part, slot.result = some part → good slot.start part

/-- A serial number has been given out, for results that start at `start` only. -/
def Reserves (table : MemoTable Value) (serial start : Nat) : Prop :=
  serial ≤ table.serial ∧
    ∀ slot ∈ table.occupied, slot.serial = serial → slot.start = start

variable {good : Nat → Phrase Value → Prop} {table : MemoTable Value}
variable {serial start : Nat}

theorem Holds.of_occupied_eq_nil (hoccupied : table.occupied = []) :
    table.Holds good where
  serial_le slot hslot := by simp [hoccupied] at hslot
  result slot hslot := by simp [hoccupied] at hslot

theorem Holds.find (hholds : table.Holds good) (position : Nat) :
    (table.find position).2.Holds good where
  serial_le := by simpa only [occupied_find, serial_find] using hholds.serial_le
  result := by simpa only [occupied_find] using hholds.result

theorem Reserves.find (hreserves : table.Reserves serial start) (position : Nat) :
    (table.find position).2.Reserves serial start := by
  simpa only [Reserves, occupied_find, serial_find] using hreserves

/-- A new slot holds no result yet. -/
theorem Holds.save (hholds : table.Holds good) (position : Nat) :
    (table.save position).2.Holds good := by
  rcases table.save_cases position with ⟨_, hsave⟩ | ⟨_, _, hserial, hslots⟩
  · rw [hsave]
    exact hholds
  · constructor
    · intro slot hslot
      rw [hserial]
      rcases hslots slot hslot with rfl | hold
      · exact Nat.le_refl _
      · exact Nat.le_succ_of_le (hholds.serial_le slot hold)
    · intro slot hslot part hresult
      rcases hslots slot hslot with rfl | hold
      · simp at hresult
      · exact hholds.result slot hold part hresult

theorem Reserves.save (hreserves : table.Reserves serial start) (position : Nat) :
    (table.save position).2.Reserves serial start := by
  obtain ⟨hbound, hstart⟩ := hreserves
  rcases table.save_cases position with ⟨_, hsave⟩ | ⟨_, _, hserial, hslots⟩
  · rw [hsave]
    exact ⟨hbound, hstart⟩
  · constructor
    · rw [hserial]
      exact Nat.le_succ_of_le hbound
    · intro slot hslot hnumber
      rcases hslots slot hslot with rfl | hold
      · simp only at hnumber
        omega
      · exact hstart slot hold hnumber

theorem Holds.reserves_save (hholds : table.Holds good) {position : Nat}
    {reservation : Reservation}
    (hreservation : (table.save position).1 = some reservation) :
    (table.save position).2.Reserves reservation.serial position := by
  rcases table.save_cases position with ⟨_, hsave⟩ | ⟨_, hnew, hserial, hslots⟩
  · rw [hsave] at hreservation
    contradiction
  · obtain rfl := Option.some.inj (hnew.symm.trans hreservation)
    constructor
    · exact Nat.le_of_eq hserial.symm
    · intro slot hslot hnumber
      rcases hslots slot hslot with rfl | hold
      · rfl
      · have hbound := hholds.serial_le slot hold
        simp only at hnumber
        omega

theorem Holds.fill (hholds : table.Holds good) (hreserves : table.Reserves serial start)
    {part : Phrase Value} (hpart : good start part) :
    (table.fill serial part).Holds good := by
  constructor
  · intro slot hslot
    rw [serial_fill]
    rcases mem_occupied_fill hslot with ⟨hkept, _⟩ | ⟨old, hold, _, rfl⟩
    · exact hholds.serial_le slot hkept
    · exact hholds.serial_le old hold
  · intro slot hslot stored hresult
    rcases mem_occupied_fill hslot with ⟨hkept, _⟩ | ⟨old, hold, hnumber, rfl⟩
    · exact hholds.result slot hkept stored hresult
    · obtain rfl : part = stored := Option.some.inj hresult
      simp only [hreserves.2 old hold hnumber]
      exact hpart

theorem Reserves.fill (hreserves : table.Reserves serial start) (filled : Nat)
    (part : Phrase Value) : (table.fill filled part).Reserves serial start := by
  obtain ⟨hbound, hstart⟩ := hreserves
  refine ⟨hbound, ?_⟩
  intro slot hslot hnumber
  rcases mem_occupied_fill hslot with ⟨hkept, _⟩ | ⟨old, hold, _, rfl⟩
  · exact hstart slot hkept hnumber
  · exact hstart old hold hnumber

/-- What a look-up finds is good at the cursor. -/
theorem Holds.good_of_lookup (hholds : table.Holds good) {position : Nat}
    {part : Phrase Value} (hlookup : table.lookup position = .hit part) :
    good position part := by
  obtain ⟨slot, hslot, hstart, hresult⟩ := mem_of_lookup_eq_hit hlookup
  rw [← hstart]
  exact hholds.result slot hslot part hresult

end MemoTable

/-! ## All tables and all open phrases -/

/-- A ticket leads to a reservation at `start`. -/
def Ticket.ReservedAt (tables : List (MemoTable Value)) (start : Nat) (ticket : Ticket) :
    Prop :=
  ∃ table, tables[ticket.table]? = some table ∧ table.Reserves ticket.serial start

/-- Each table keeps results that are good for it, and each ticket of an open phrase leads
to a reservation at its start. -/
structure Ledger (good : Nat → Nat → Phrase Value → Prop) (frames : List (Frame Value))
    (tables : List (MemoTable Value)) : Prop where
  holds : ∀ (index : Nat) (table : MemoTable Value), tables[index]? = some table →
    table.Holds (good index)
  reserved : ∀ frame ∈ frames, ∀ ticket, frame.ticket = some ticket →
    ticket.ReservedAt tables frame.phrase.start

namespace Ledger

variable {good : Nat → Nat → Phrase Value → Prop} {frames outer : List (Frame Value)}
variable {frame : Frame Value} {top : Phrase Value} {tables : List (MemoTable Value)}
variable {index : Nat} {table : MemoTable Value}

/-- Before anything has been looked up. -/
theorem of_occupied_eq_nil (hoccupied : ∀ table ∈ tables, table.occupied = []) :
    Ledger good [] tables where
  holds _ table htable := .of_occupied_eq_nil (hoccupied table (List.mem_of_getElem? htable))
  reserved := nofun

theorem push (hledger : Ledger good frames tables)
    (hframe : ∀ ticket, frame.ticket = some ticket →
      ticket.ReservedAt tables frame.phrase.start) :
    Ledger good (frame :: frames) tables where
  holds := hledger.holds
  reserved := List.forall_mem_cons.mpr ⟨hframe, hledger.reserved⟩

theorem pop (hledger : Ledger good (frame :: outer) tables) : Ledger good outer tables where
  holds := hledger.holds
  reserved := (List.forall_mem_cons.mp hledger.reserved).2

/-- Tickets depend on the starts of the open phrases only. -/
theorem changeInnermost (hledger : Ledger good frames tables)
    {change : Phrase Value → Phrase Value}
    (hstart : ∀ phrase, (change phrase).start = phrase.start) :
    Ledger good (Stack.changeInnermost change (top, frames)).2 tables := by
  cases frames with
  | nil => exact hledger
  | cons frame outer =>
      apply hledger.pop.push
      intro ticket hticket
      simp only [hstart]
      exact hledger.reserved frame List.mem_cons_self ticket hticket

/-- A table is replaced by one that keeps its reservations. -/
theorem set (hledger : Ledger good frames tables) {old new : MemoTable Value}
    (hold : tables[index]? = some old) (hnew : new.Holds (good index))
    (hkept : ∀ serial start, old.Reserves serial start → new.Reserves serial start) :
    Ledger good frames (tables.set index new) where
  holds place table htable := by
    rcases MemoTable.getElem?_set_cases htable with ⟨rfl, rfl⟩ | ⟨_, hsame⟩
    · exact hnew
    · exact hledger.holds place table hsame
  reserved frame hframe ticket hticket := by
    obtain ⟨table, htable, hreserves⟩ := hledger.reserved frame hframe ticket hticket
    by_cases hplace : index = ticket.table
    · subst hplace
      obtain rfl : old = table := Option.some.inj (hold.symm.trans htable)
      have hindex := (List.getElem?_eq_some_iff.mp hold).1
      exact ⟨new, List.getElem?_set_self hindex, hkept _ _ hreserves⟩
    · exact ⟨table, (List.getElem?_set_ne hplace).trans htable, hreserves⟩

theorem append_empty (hledger : Ledger good frames tables)
    (hoccupied : table.occupied = []) : Ledger good frames (tables ++ [table]) where
  holds index other hother := by
    by_cases hindex : index < tables.length
    · rw [List.getElem?_append_left hindex] at hother
      exact hledger.holds index other hother
    · rw [List.getElem?_append_right (Nat.not_lt.mp hindex)] at hother
      obtain rfl : other = table := List.mem_singleton.mp (List.mem_of_getElem? hother)
      exact .of_occupied_eq_nil hoccupied
  reserved frame hframe ticket hticket := by
    obtain ⟨old, hold, hreserves⟩ := hledger.reserved frame hframe ticket hticket
    have hindex := (List.getElem?_eq_some_iff.mp hold).1
    exact ⟨old, (List.getElem?_append_left hindex).trans hold, hreserves⟩

/-- A closed phrase is stored where its ticket says, provided that it is good there. -/
theorem filled (hledger : Ledger good (frame :: outer) tables) {part : Phrase Value}
    (hpart : ∀ ticket, frame.ticket = some ticket →
      good ticket.table frame.phrase.start part) :
    Ledger good outer (Machine.filled frame.ticket part tables) := by
  cases hticket : frame.ticket with
  | none => exact hledger.pop
  | some ticket =>
      obtain ⟨table, htable, hreserves⟩ :=
        hledger.reserved frame List.mem_cons_self ticket hticket
      simp only [Machine.filled, MemoTable.modify_eq_set_of_getElem? _ htable]
      apply hledger.pop.set htable
      · exact (hledger.holds ticket.table table htable).fill hreserves
          (hpart ticket hticket)
      · intro serial start hother
        exact hother.fill ticket.serial part

/-- Counting a look-up. -/
theorem find (hledger : Ledger good frames tables) (htable : tables[index]? = some table)
    (position : Nat) :
    Ledger good frames (tables.set index (table.find position).2) :=
  hledger.set htable ((hledger.holds index table htable).find position)
    fun _ _ hreserves => hreserves.find position

theorem save (hledger : Ledger good frames tables) (htable : tables[index]? = some table)
    (position : Nat) :
    Ledger good frames (tables.set index ((table.find position).2.save position).2) :=
  hledger.set htable (((hledger.holds index table htable).find position).save position)
    fun _ _ hreserves => (hreserves.find position).save position

/-- The ticket that a phrase gets when its table has no result for the cursor. -/
theorem reservedAt_save (hledger : Ledger good frames tables)
    (htable : tables[index]? = some table) {position : Nat} {ticket : Ticket}
    (hticket : ((table.find position).2.save position).1.map
      (fun reservation => (⟨index, reservation.serial⟩ : Ticket)) = some ticket) :
    ticket.ReservedAt (tables.set index ((table.find position).2.save position).2)
      position := by
  obtain ⟨reservation, hreservation, rfl⟩ := Option.map_eq_some_iff.mp hticket
  have hindex := (List.getElem?_eq_some_iff.mp htable).1
  have hsearched := (hledger.holds index table htable).find position
  exact ⟨_, List.getElem?_set_self hindex, hsearched.reserves_save hreservation⟩

end Ledger

end Packrat
