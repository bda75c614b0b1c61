import Mathlib.Data.List.Find
import Mathlib.Data.List.Rotate
import Packrat.Proofs.Coherence
import Packrat.Proofs.Ring

/-!
# A memo table as a queue

A memo table answers like a queue that keeps its latest reservations in the order in which they
were made and drops the oldest one when a further one does not fit.  Read from the slot that is
taken next, the ring shows free slots first and then the queue; a reservation turns the ring by
one slot.
-/

namespace Packrat

variable {Value : Type}

/-! ## Calls -/

inductive TableCall (Value : Type) where
  | find (position : Nat)
  | save (position : Nat)
  | fill (serial : Nat) (phrase : Phrase Value)

inductive TableAnswer (Value : Type) where
  | found (lookup : Lookup Value)
  | saved (reservation : Option Reservation)
  | filled

namespace TableCall

def isFind : TableCall Value → Bool
  | find _ => true
  | _ => false

/-- The position of a save. -/
def saved? : TableCall Value → Option Nat
  | save position => some position
  | _ => none

/-- The answers to calls that are made one after another, and the state at the end. -/
def answerAll {State : Type} (answer : State → TableCall Value → TableAnswer Value × State) :
    State → List (TableCall Value) → List (TableAnswer Value) × State
  | state, [] => ([], state)
  | state, call :: rest =>
      let following := answerAll answer (answer state call).2 rest
      ((answer state call).1 :: following.1, following.2)

end TableCall

namespace TableAnswer

/-- Something was found, finished or not. -/
def isHit : TableAnswer Value → Bool
  | found .miss => false
  | found _ => true
  | _ => false

/-- A save has made another reservation give way. -/
def isEviction : TableAnswer Value → Bool
  | saved (some reservation) => reservation.evicted.isSome
  | _ => false

/-- The answers of something that keeps nothing. -/
def isIdle : TableAnswer Value → Prop
  | found lookup => lookup = .miss
  | saved reservation => reservation = none
  | filled => True

end TableAnswer

namespace MemoTable

def answer (table : MemoTable Value) : TableCall Value → TableAnswer Value × MemoTable Value
  | .find position => (.found (table.find position).1, (table.find position).2)
  | .save position => (.saved (table.save position).1, (table.save position).2)
  | .fill serial phrase => (.filled, table.fill serial phrase)

/-- A position may be saved while it is not found. -/
def Admits (table : MemoTable Value) : TableCall Value → Prop
  | .save position => (table.find position).1 = .miss
  | _ => True

/-- Every call is admitted when its turn comes. -/
def IsOrderly (table : MemoTable Value) : List (TableCall Value) → Prop
  | [] => True
  | call :: rest => table.Admits call ∧ (table.answer call).2.IsOrderly rest

end MemoTable

/-! ## The queue -/

/-- The latest reservations, the oldest first. -/
structure SaveQueue (Value : Type) where
  capacity : Nat
  /-- How many reservations there have been. -/
  saved : Nat
  entries : List (Slot Value)

namespace SaveQueue

def empty (capacity : Nat) : SaveQueue Value := ⟨capacity, 0, []⟩

def find (queue : SaveQueue Value) (position : Nat) : Lookup Value :=
  match queue.entries.find? (·.start == position) with
  | none => .miss
  | some entry =>
      match entry.result with
      | none => .pending
      | some phrase => .hit phrase

/-- A new entry comes last.  When there is no room left for it, the oldest one is dropped; where
there is no room at all, nothing is saved. -/
def save (queue : SaveQueue Value) (position : Nat) :
    Option Reservation × SaveQueue Value :=
  let entry := ⟨position, queue.saved + 1, none⟩
  if queue.entries.length < queue.capacity then
    (some ⟨entry.serial, none⟩,
      { queue with saved := entry.serial, entries := queue.entries ++ [entry] })
  else
    match queue.entries with
    | [] => (none, queue)
    | oldest :: rest =>
        (some ⟨entry.serial, some oldest.start⟩,
          { queue with saved := entry.serial, entries := rest ++ [entry] })

def fill (queue : SaveQueue Value) (serial : Nat) (phrase : Phrase Value) : SaveQueue Value :=
  { queue with
    entries := queue.entries.map fun entry =>
      if entry.serial = serial then { entry with result := some phrase } else entry }

def answer (queue : SaveQueue Value) : TableCall Value → TableAnswer Value × SaveQueue Value
  | .find position => (.found (queue.find position), queue)
  | .save position => (.saved (queue.save position).1, (queue.save position).2)
  | .fill serial phrase => (.filled, queue.fill serial phrase)

end SaveQueue

/-! ## One turn of the ring -/

namespace MemoTable

variable {table : MemoTable Value} {queue : SaveQueue Value}

/-- The slots from the one that is taken next to the one that was taken last. -/
def turned (table : MemoTable Value) : List (Option (Slot Value)) :=
  table.slots.rotate (table.last + 1)

theorem turned_perm (table : MemoTable Value) : table.turned.Perm table.slots :=
  List.rotate_perm _ _

theorem turned_find (table : MemoTable Value) (position : Nat) :
    (table.find position).2.turned = table.turned := by
  rw [turned, turned, slots_find, last_find]

theorem turned_fill (table : MemoTable Value) (serial : Nat) (phrase : Phrase Value) :
    (table.fill serial phrase).turned =
      table.turned.map (Option.map fun slot =>
        if slot.serial = serial then { slot with result := some phrase } else slot) :=
  (List.map_rotate _ _ _).symm

/-- A reservation takes the slot in front and puts it last. -/
theorem turned_save (hslots : table.slots ≠ []) (position : Nat) :
    ∃ rest, table.turned = table.nextSlot? :: rest ∧
      (table.save position).2.turned = rest ++ [some ⟨position, table.serial + 1, none⟩] := by
  let next := (table.last + 1) % table.slots.length
  have hnext : next < table.slots.length := Nat.mod_lt _ (List.length_pos_iff.mpr hslots)
  let new : Slot Value := ⟨position, table.serial + 1, none⟩
  let before := table.slots.take next
  let after := table.slots.drop (next + 1)
  have hbefore : before.length = next := List.length_take_of_le (Nat.le_of_lt hnext)
  have hslot : table.nextSlot? = table.slots[next] := by
    rw [nextSlot?, List.getElem?_eq_getElem hnext]
    rfl
  have hsplit : table.slots = before ++ table.nextSlot? :: after := by
    rw [hslot, ← List.drop_eq_getElem_cons hnext, List.take_append_drop]
  have hsaved : (table.save position).2.slots =
      (before ++ [some new]) ++ after := by
    rw [slots_save hslots, List.set_eq_take_append_cons_drop, if_pos hnext, List.append_assoc]
    rfl
  refine ⟨after ++ before, ?_, ?_⟩
  · calc table.turned = table.slots.rotate next := (List.rotate_mod _ _).symm
      _ = (before ++ table.nextSlot? :: after).rotate before.length := by
          rw [hbefore, ← hsplit]
      _ = table.nextSlot? :: (after ++ before) := List.rotate_append_length_eq _ _
  · have hlength : (before ++ [some new]).length = next + 1 := by
      rw [List.length_append, hbefore, List.length_singleton]
    rw [turned, last_save hslots, hsaved, ← hlength, List.rotate_append_length_eq,
      List.append_assoc]

theorem save_fst (hslots : table.slots ≠ []) (position : Nat) :
    (table.save position).1 = some ⟨table.serial + 1, table.nextSlot?.map Slot.start⟩ := by
  have hempty : table.slots.isEmpty = false := by simpa using hslots
  simp only [save, hempty, Bool.false_eq_true, if_false]
  rfl

/-! ## Table and queue side by side -/

/-- The turned ring shows the free slots and then the entries of the queue. -/
structure Mirrors (table : MemoTable Value) (queue : SaveQueue Value) : Prop where
  length_eq : table.slots.length = queue.capacity
  serial_eq : table.serial = queue.saved
  turned_eq : table.turned =
    List.replicate (queue.capacity - queue.entries.length) none ++ queue.entries.map some
  starts_nodup : (queue.entries.map Slot.start).Nodup

theorem mirrors_reset (table : MemoTable Value) (capacity : Nat) :
    (table.reset capacity).Mirrors (.empty capacity) where
  length_eq := length_slots_reset table capacity
  serial_eq := rfl
  turned_eq := by
    simp only [turned, reset, MemoTable.empty, SaveQueue.empty, List.rotate_replicate,
      List.length_nil, Nat.sub_zero, List.map_nil, List.append_nil]
  starts_nodup := List.nodup_nil

theorem Mirrors.length_entries_le (hmirrors : table.Mirrors queue) :
    queue.entries.length ≤ queue.capacity := by
  have hlength := congrArg List.length hmirrors.turned_eq
  rw [turned, List.length_rotate, hmirrors.length_eq, List.length_append, List.length_replicate,
    List.length_map] at hlength
  omega

theorem Mirrors.entries_perm (hmirrors : table.Mirrors queue) :
    queue.entries.Perm table.occupied := by
  have hperm := (turned_perm table).filterMap id
  have hfree : ∀ count, (List.replicate count (none : Option (Slot Value))).filterMap id = [] :=
    fun count => List.filterMap_replicate_of_none rfl
  have hentries : (queue.entries.map some).filterMap id = queue.entries := by
    rw [List.filterMap_map]
    exact List.filterMap_some
  rw [hmirrors.turned_eq, List.filterMap_append, hfree, List.nil_append, hentries] at hperm
  exact hperm

/-- At most one entry has a given start, so it does not matter in which order one searches. -/
theorem Mirrors.lookup_eq (hmirrors : table.Mirrors queue) (position : Nat) :
    table.lookup position = queue.find position := by
  have hunique : {entry ∈ queue.entries | (entry.start == position) = true}.Subsingleton := by
    intro first hfirst second hsecond
    have hstart : first.start = second.start := by
      rw [beq_iff_eq.mp hfirst.2, beq_iff_eq.mp hsecond.2]
    exact List.inj_on_of_nodup_map hmirrors.starts_nodup hfirst.1 hsecond.1 hstart
  rw [SaveQueue.find, List.find?_eq_find?_of_perm hmirrors.entries_perm hunique]
  rfl

theorem Mirrors.find (hmirrors : table.Mirrors queue) (position : Nat) :
    (table.find position).2.Mirrors queue where
  length_eq := by rw [slots_find, hmirrors.length_eq]
  serial_eq := by rw [serial_find, hmirrors.serial_eq]
  turned_eq := by rw [turned_find, hmirrors.turned_eq]
  starts_nodup := hmirrors.starts_nodup

theorem Mirrors.fill (hmirrors : table.Mirrors queue) (serial : Nat) (phrase : Phrase Value) :
    (table.fill serial phrase).Mirrors (queue.fill serial phrase) where
  length_eq := by rw [length_slots_fill, hmirrors.length_eq, SaveQueue.fill]
  serial_eq := hmirrors.serial_eq
  turned_eq := by
    rw [turned_fill, hmirrors.turned_eq, List.map_append, List.map_replicate, Option.map_none]
    simp only [SaveQueue.fill, List.length_map, List.map_map]
    rfl
  starts_nodup := by
    have hstarts : (queue.fill serial phrase).entries.map Slot.start =
        queue.entries.map Slot.start := by
      rw [SaveQueue.fill, List.map_map]
      apply List.map_congr_left
      intro entry _
      rw [Function.comp_apply]
      split <;> rfl
    rw [hstarts]
    exact hmirrors.starts_nodup

/-- Without slots nothing is saved on either side. -/
theorem Mirrors.save_of_no_slots (hmirrors : table.Mirrors queue) (hslots : table.slots = [])
    (position : Nat) :
    table.save position = (none, table) ∧ queue.save position = (none, queue) := by
  have hcapacity : queue.capacity = 0 := by
    rw [← hmirrors.length_eq, hslots, List.length_nil]
  have hentries : queue.entries = [] := by
    have hle := hmirrors.length_entries_le
    exact List.eq_nil_of_length_eq_zero (by omega)
  constructor
  · simp [MemoTable.save, hslots]
  · simp [SaveQueue.save, hcapacity, hentries]

theorem nodup_starts_append {entries : List (Slot Value)} {new : Slot Value}
    (hnodup : (entries.map Slot.start).Nodup)
    (hnew : ∀ entry ∈ entries, entry.start ≠ new.start) :
    ((entries ++ [new]).map Slot.start).Nodup :=
  nodup_map_of_perm_cons (List.perm_append_singleton new entries) (.refl entries) hnodup hnew

/-- A position that is not found is saved on both sides with the same answer. -/
theorem Mirrors.save (hmirrors : table.Mirrors queue) {position : Nat}
    (hmiss : table.lookup position = .miss) :
    (table.save position).1 = (queue.save position).1 ∧
      (table.save position).2.Mirrors (queue.save position).2 := by
  by_cases hslots : table.slots = []
  · obtain ⟨htable, hqueue⟩ := hmirrors.save_of_no_slots hslots position
    rw [htable, hqueue]
    exact ⟨rfl, hmirrors⟩
  obtain ⟨rest, hbefore, hafter⟩ := turned_save hslots position
  have hnew : ∀ entry ∈ queue.entries, entry.start ≠ position := fun entry hentry =>
    start_ne_of_lookup_eq_miss hmiss (hmirrors.entries_perm.subset hentry)
  rw [hmirrors.turned_eq] at hbefore
  rw [save_fst hslots, SaveQueue.save, hmirrors.serial_eq]
  by_cases hroom : queue.entries.length < queue.capacity
  · have hfree : queue.capacity - queue.entries.length =
        queue.capacity - (queue.entries.length + 1) + 1 := by omega
    rw [hfree, List.replicate_succ, List.cons_append, List.cons.injEq] at hbefore
    rw [if_pos hroom, ← hbefore.1]
    refine ⟨rfl, ?_, ?_, ?_, ?_⟩
    · rw [length_slots_save, hmirrors.length_eq]
    · rw [serial_save hslots, hmirrors.serial_eq]
    · rw [hafter, ← hbefore.2, hmirrors.serial_eq, List.append_assoc, List.map_append,
        List.length_append, List.length_singleton]
      rfl
    · exact nodup_starts_append hmirrors.starts_nodup hnew
  · have hfull : queue.capacity - queue.entries.length = 0 := by omega
    have hcapacity : 0 < queue.capacity := by
      rw [← hmirrors.length_eq]
      exact List.length_pos_iff.mpr hslots
    rw [if_neg hroom]
    rw [hfull, List.replicate_zero, List.nil_append] at hbefore
    obtain ⟨oldest, kept, hentries⟩ : ∃ oldest kept, queue.entries = oldest :: kept :=
      List.exists_cons_of_length_pos (by omega)
    rw [hentries, List.map_cons, List.cons.injEq] at hbefore
    have hlength : queue.capacity - (kept.length + 1) = 0 := by
      rwa [hentries, List.length_cons] at hfull
    have hstarts : (kept.map Slot.start).Nodup := by
      have hnodup := hmirrors.starts_nodup
      rw [hentries, List.map_cons] at hnodup
      exact hnodup.of_cons
    simp only [hentries, ← hbefore.1]
    refine ⟨rfl, ?_, ?_, ?_, ?_⟩
    · rw [length_slots_save, hmirrors.length_eq]
    · rw [serial_save hslots, hmirrors.serial_eq]
    · rw [hafter, ← hbefore.2, hmirrors.serial_eq, List.length_append, List.length_singleton,
        hlength, List.map_append]
      rfl
    · exact nodup_starts_append hstarts fun entry hentry =>
        hnew entry (hentries ▸ List.mem_cons_of_mem _ hentry)

theorem Mirrors.answer (hmirrors : table.Mirrors queue) {call : TableCall Value}
    (hadmits : table.Admits call) :
    (table.answer call).1 = (queue.answer call).1 ∧
      (table.answer call).2.Mirrors (queue.answer call).2 := by
  cases call with
  | find position =>
      refine ⟨congrArg TableAnswer.found ?_, hmirrors.find position⟩
      rw [find_fst, hmirrors.lookup_eq]
  | save position =>
      obtain ⟨hanswer, hafter⟩ := hmirrors.save ((find_fst table position).symm.trans hadmits)
      exact ⟨congrArg TableAnswer.saved hanswer, hafter⟩
  | fill serial phrase => exact ⟨rfl, hmirrors.fill serial phrase⟩

theorem Mirrors.answerAll {calls : List (TableCall Value)} (hmirrors : table.Mirrors queue)
    (horderly : table.IsOrderly calls) :
    (TableCall.answerAll MemoTable.answer table calls).1 =
        (TableCall.answerAll SaveQueue.answer queue calls).1 ∧
      (TableCall.answerAll MemoTable.answer table calls).2.Mirrors
        (TableCall.answerAll SaveQueue.answer queue calls).2 := by
  induction calls generalizing table queue with
  | nil => exact ⟨rfl, hmirrors⟩
  | cons call rest ih =>
      obtain ⟨hanswer, hafter⟩ := hmirrors.answer horderly.1
      obtain ⟨hanswers, hfinal⟩ := ih hafter horderly.2
      exact ⟨congrArg₂ List.cons hanswer hanswers, hfinal⟩

/-! ## Counting -/

theorem length_slots_answer (table : MemoTable Value) (call : TableCall Value) :
    (table.answer call).2.slots.length = table.slots.length := by
  cases call with
  | find position => exact congrArg List.length (slots_find table position)
  | save position => exact length_slots_save table position
  | fill serial phrase => exact length_slots_fill table serial phrase

theorem counters_answer (hslots : table.slots ≠ []) (call : TableCall Value) :
    (table.answer call).2.counters =
      { lookups := table.counters.lookups + if call.isFind then 1 else 0
        hits := table.counters.hits + if (table.answer call).1.isHit then 1 else 0
        saves := table.counters.saves + call.saved?.toList.length
        evictions :=
          table.counters.evictions + if (table.answer call).1.isEviction then 1 else 0 } := by
  cases call with
  | find position =>
      simp only [MemoTable.answer, counters_find hslots, find_fst]
      cases table.lookup position <;> rfl
  | save position =>
      simp only [MemoTable.answer, counters_save hslots, save_fst hslots, TableAnswer.isEviction,
        Option.isSome_map]
      rfl
  | fill serial phrase => rfl

/-- The counters of a table with slots count the calls and the answers. -/
theorem counters_answerAll (hslots : table.slots ≠ []) (calls : List (TableCall Value)) :
    (TableCall.answerAll MemoTable.answer table calls).2.counters =
      { lookups := table.counters.lookups + calls.countP TableCall.isFind
        hits := table.counters.hits +
          (TableCall.answerAll MemoTable.answer table calls).1.countP TableAnswer.isHit
        saves := table.counters.saves + (calls.filterMap TableCall.saved?).length
        evictions := table.counters.evictions +
          (TableCall.answerAll MemoTable.answer table calls).1.countP TableAnswer.isEviction } := by
  induction calls generalizing table with
  | nil => rfl
  | cons call rest ih =>
      have hafter : (table.answer call).2.slots ≠ [] := by
        rwa [Ne, ← List.length_eq_zero_iff, length_slots_answer, List.length_eq_zero_iff]
      simp only [TableCall.answerAll]
      rw [ih hafter, counters_answer hslots]
      simp only [List.countP_cons, List.filterMap_cons]
      cases hsaved : call.saved? <;> simp <;> omega

/-- A table without slots keeps nothing and counts nothing. -/
theorem answer_of_no_slots (hslots : table.slots = []) (call : TableCall Value) :
    (table.answer call).1.isIdle ∧ (table.answer call).2 = table := by
  cases call with
  | find position => simp [MemoTable.answer, MemoTable.find, hslots, TableAnswer.isIdle]
  | save position => simp [MemoTable.answer, MemoTable.save, hslots, TableAnswer.isIdle]
  | fill serial phrase =>
      obtain ⟨_, _, slots, _, _, _⟩ := table
      obtain rfl : slots = [] := hslots
      exact ⟨trivial, rfl⟩

theorem answerAll_of_no_slots (hslots : table.slots = []) (calls : List (TableCall Value)) :
    (∀ answer ∈ (TableCall.answerAll MemoTable.answer table calls).1, answer.isIdle) ∧
      (TableCall.answerAll MemoTable.answer table calls).2 = table := by
  induction calls with
  | nil => exact ⟨by simp [TableCall.answerAll], rfl⟩
  | cons call rest ih =>
      obtain ⟨hidle, hsame⟩ := answer_of_no_slots hslots call
      simp only [TableCall.answerAll, hsame]
      exact ⟨List.forall_mem_cons.mpr ⟨hidle, ih.1⟩, ih.2⟩

end MemoTable

/-! ## What the queue keeps -/

namespace SaveQueue

variable {queue : SaveQueue Value}

/-- The queue keeps the latest of the saves at the given positions, numbered from one. -/
structure IsRecent (queue : SaveQueue Value) (positions : List Nat) : Prop where
  entries_eq : queue.entries.map (fun entry => (entry.start, entry.serial)) =
    (positions.zipIdx 1).drop (positions.length - queue.capacity)
  saved_eq : 0 < queue.capacity → queue.saved = positions.length

theorem isRecent_empty (capacity : Nat) : (empty capacity : SaveQueue Value).IsRecent [] :=
  ⟨List.drop_nil.symm, fun _ => rfl⟩

theorem IsRecent.length_entries {positions : List Nat} (hrecent : queue.IsRecent positions) :
    queue.entries.length = positions.length - (positions.length - queue.capacity) := by
  have hlength := congrArg List.length hrecent.entries_eq
  simpa using hlength

theorem IsRecent.save {positions : List Nat} (hrecent : queue.IsRecent positions)
    (position : Nat) : (queue.save position).2.IsRecent (positions ++ [position]) := by
  have hlength := hrecent.length_entries
  have hnumbered : (positions ++ [position]).zipIdx 1 =
      positions.zipIdx 1 ++ [(position, positions.length + 1)] := by
    rw [List.zipIdx_append, Nat.add_comm]
    rfl
  have hcount : (positions ++ [position]).length = positions.length + 1 := by
    rw [List.length_append, List.length_singleton]
  rw [SaveQueue.save]
  split
  · next hroom =>
      have hall : positions.length - queue.capacity = 0 := by omega
      have hstill : positions.length + 1 - queue.capacity = 0 := by omega
      have hsaved := hrecent.saved_eq (Nat.zero_lt_of_lt hroom)
      have hentries := hrecent.entries_eq
      rw [hall, List.drop_zero] at hentries
      refine ⟨?_, fun _ => ?_⟩
      · rw [hcount, hstill, List.drop_zero, hnumbered, List.map_append, hentries, ← hsaved]
        rfl
      · rw [hcount, ← hsaved]
  · next hfull =>
      cases hqueue : queue.entries with
      | nil =>
          rw [hqueue, List.length_nil] at hfull
          refine ⟨?_, fun hcapacity => absurd hcapacity hfull⟩
          have hnone : queue.capacity = 0 := by omega
          rw [hqueue, hnone, Nat.sub_zero, List.drop_of_length_le (by simp), List.map_nil]
      | cons oldest kept =>
          rw [hqueue] at hlength hfull
          rw [List.length_cons] at hlength hfull
          have hdropped : positions.length + 1 - queue.capacity =
              positions.length - queue.capacity + 1 := by omega
          have hwithin : positions.length - queue.capacity + 1 ≤
              (positions.zipIdx 1).length := by
            rw [List.length_zipIdx]
            omega
          have hkept : kept.map (fun entry => (entry.start, entry.serial)) =
              (positions.zipIdx 1).drop (positions.length - queue.capacity + 1) := by
            rw [← List.tail_drop, ← hrecent.entries_eq, hqueue, List.map_cons, List.tail_cons]
          have hsaved := hrecent.saved_eq (by omega)
          refine ⟨?_, fun _ => ?_⟩
          · rw [hcount, hdropped, hnumbered, List.drop_append_of_le_length hwithin, ← hkept,
              List.map_append, ← hsaved]
            rfl
          · rw [hcount, ← hsaved]

@[simp]
theorem capacity_answer (queue : SaveQueue Value) (call : TableCall Value) :
    (queue.answer call).2.capacity = queue.capacity := by
  cases call with
  | find position => rfl
  | save position =>
      simp only [answer, save]
      split
      · rfl
      · split <;> rfl
  | fill serial phrase => rfl

theorem IsRecent.fill {positions : List Nat} (hrecent : queue.IsRecent positions)
    (serial : Nat) (phrase : Phrase Value) :
    (queue.fill serial phrase).IsRecent positions where
  entries_eq := by
    have hsame : (queue.fill serial phrase).entries.map
        (fun entry => (entry.start, entry.serial)) =
          queue.entries.map (fun entry => (entry.start, entry.serial)) := by
      rw [SaveQueue.fill, List.map_map]
      apply List.map_congr_left
      intro entry _
      rw [Function.comp_apply]
      split <;> rfl
    rw [hsame]
    exact hrecent.entries_eq
  saved_eq := hrecent.saved_eq

theorem IsRecent.answerAll {positions : List Nat} (hrecent : queue.IsRecent positions)
    (calls : List (TableCall Value)) :
    (TableCall.answerAll SaveQueue.answer queue calls).2.IsRecent
      (positions ++ calls.filterMap TableCall.saved?) := by
  induction calls generalizing queue positions with
  | nil =>
      rw [List.filterMap_nil, List.append_nil]
      exact hrecent
  | cons call rest ih =>
      cases call with
      | find position => exact ih hrecent
      | save position =>
          have hafter := ih (hrecent.save position)
          rwa [List.append_assoc] at hafter
      | fill serial phrase => exact ih (hrecent.fill serial phrase)

theorem capacity_answerAll (queue : SaveQueue Value) (calls : List (TableCall Value)) :
    (TableCall.answerAll SaveQueue.answer queue calls).2.capacity = queue.capacity := by
  induction calls generalizing queue with
  | nil => rfl
  | cons call rest ih => exact (ih _).trans (capacity_answer queue call)

end SaveQueue

/-- After a reset, a table to which a position is saved only while it is not found gives the
answers of a queue that keeps as many reservations as the table has slots.  What the queue holds
in the end are the latest saves in order, at most one for a position, and the counters tell the
calls and the answers.  A table without slots finds nothing, saves nothing and counts nothing. -/
theorem MemoTable.answers_as_queue (table : MemoTable Value) (capacity : Nat)
    (calls : List (TableCall Value)) (horderly : (table.reset capacity).IsOrderly calls) :
    ∃ answers final queue,
      TableCall.answerAll MemoTable.answer (table.reset capacity) calls = (answers, final) ∧
      TableCall.answerAll SaveQueue.answer (.empty capacity) calls = (answers, queue) ∧
      queue.entries.map (fun entry => (entry.start, entry.serial)) =
        ((calls.filterMap TableCall.saved?).zipIdx 1).drop
          ((calls.filterMap TableCall.saved?).length - capacity) ∧
      (queue.entries.map Slot.start).Nodup ∧
      (0 < capacity → final.counters =
        { lookups := calls.countP TableCall.isFind
          hits := answers.countP TableAnswer.isHit
          saves := (calls.filterMap TableCall.saved?).length
          evictions := answers.countP TableAnswer.isEviction }) ∧
      (capacity = 0 →
        (∀ answer ∈ answers, answer.isIdle) ∧ final.counters = .zero) := by
  obtain ⟨hanswers, hmirrors⟩ := (MemoTable.mirrors_reset table capacity).answerAll horderly
  have hrecent := (SaveQueue.isRecent_empty capacity).answerAll calls
  refine ⟨_, _, _, rfl, Prod.ext hanswers.symm rfl, ?_, hmirrors.starts_nodup, ?_, ?_⟩
  · have hentries := hrecent.entries_eq
    rwa [SaveQueue.capacity_answerAll, List.nil_append] at hentries
  · intro hcapacity
    have hslots : (table.reset capacity).slots ≠ [] := by
      rw [← List.length_pos_iff, MemoTable.length_slots_reset]
      exact hcapacity
    rw [MemoTable.counters_answerAll hslots]
    simp only [MemoTable.reset, MemoTable.empty, TableCounters.zero, Nat.zero_add]
  · rintro rfl
    have hslots : (table.reset 0).slots = [] := rfl
    obtain ⟨hidle, hsame⟩ := MemoTable.answerAll_of_no_slots hslots calls
    exact ⟨hidle, congrArg MemoTable.counters hsame⟩

/-- Four saves in two slots: the first two are dropped, a result that comes too late for the
first one is ignored, and the third is found finished while the fourth is open. -/
def fourSaves : List (TableCall Unit) :=
  [.find 4, .save 4, .find 5, .save 5, .find 6, .save 6, .find 4, .save 4,
    .fill 1 (.ofTerminal 4 9), .fill 3 (.ofTerminal 6 8), .find 6, .find 5, .find 4]

theorem MemoTable.answers_as_queue_four_saves :
    ((MemoTable.empty "R" "R" 5).reset 2).IsOrderly fourSaves ∧
      ∃ answers final queue,
        TableCall.answerAll MemoTable.answer ((MemoTable.empty "R" "R" 5).reset 2) fourSaves =
          (answers, final) ∧
        TableCall.answerAll SaveQueue.answer (.empty 2) fourSaves = (answers, queue) ∧
        answers =
          [.found .miss, .saved (some ⟨1, none⟩), .found .miss, .saved (some ⟨2, none⟩),
            .found .miss, .saved (some ⟨3, some 4⟩), .found .miss, .saved (some ⟨4, some 5⟩),
            .filled, .filled, .found (.hit (.ofTerminal 6 8)), .found .miss, .found .pending] ∧
        queue.entries.map (fun entry => (entry.start, entry.serial)) = [(6, 3), (4, 4)] ∧
        final.counters = ⟨7, 2, 4, 2⟩ := by
  have horderly : ((MemoTable.empty "R" "R" 5).reset 2).IsOrderly fourSaves :=
    ⟨trivial, rfl, trivial, rfl, trivial, rfl, trivial, rfl, trivial, trivial, trivial, trivial,
      trivial, trivial⟩
  obtain ⟨answers, final, queue, htable, hqueue, hentries, _, hcounters, _⟩ :=
    answers_as_queue (MemoTable.empty "R" "R" 5) 2 fourSaves horderly
  have hanswers := congrArg Prod.fst htable
  subst hanswers
  exact ⟨horderly, _, _, _, htable, hqueue, rfl, hentries, hcounters Nat.two_pos⟩

end Packrat
