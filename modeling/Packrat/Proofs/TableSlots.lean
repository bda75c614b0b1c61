import Packrat.Grammar.Expression
import Packrat.Memo.Table

/-!
# The slots of a memo table

What a look-up says about the occupied slots, and which slots are occupied after a
reservation and after a result has been stored.
-/

namespace Packrat

namespace MemoTable

variable {Value : Type}

def label (table : MemoTable Value) : TableLabel :=
  ⟨table.name, table.diagnosis⟩

@[simp]
theorem occupied_empty (name diagnosis : String) (capacity : Nat) :
    (empty name diagnosis capacity : MemoTable Value).occupied = [] := by
  simp [empty, occupied]

theorem mem_occupied {table : MemoTable Value} {slot : Slot Value} :
    slot ∈ table.occupied ↔ some slot ∈ table.slots := by
  simp [occupied]

theorem occupied_of_isEmpty {table : MemoTable Value} (hempty : table.slots.isEmpty) :
    table.occupied = [] := by
  have hslots : table.slots = [] := List.isEmpty_iff.mp hempty
  rw [occupied, hslots]
  rfl

/-! ## Looking up -/

theorem mem_of_lookup_eq_hit {table : MemoTable Value} {position : Nat}
    {phrase : Phrase Value} (hlookup : table.lookup position = .hit phrase) :
    ∃ slot ∈ table.occupied, slot.start = position ∧ slot.result = some phrase := by
  simp only [lookup] at hlookup
  cases hfound : table.occupied.find? (·.start == position) with
  | none => simp [hfound] at hlookup
  | some slot =>
      simp only [hfound] at hlookup
      refine ⟨slot, List.mem_of_find?_eq_some hfound, ?_, ?_⟩
      · simpa using List.find?_some hfound
      · cases hresult : slot.result with
        | none => simp [hresult] at hlookup
        | some result =>
            simp only [hresult, Lookup.hit.injEq] at hlookup
            rw [hlookup]

theorem mem_of_lookup_eq_pending {table : MemoTable Value} {position : Nat}
    (hlookup : table.lookup position = .pending) :
    ∃ slot ∈ table.occupied, slot.start = position ∧ slot.result = none := by
  simp only [lookup] at hlookup
  cases hfound : table.occupied.find? (·.start == position) with
  | none => simp [hfound] at hlookup
  | some slot =>
      simp only [hfound] at hlookup
      refine ⟨slot, List.mem_of_find?_eq_some hfound, ?_, ?_⟩
      · simpa using List.find?_some hfound
      · cases hresult : slot.result with
        | none => rfl
        | some result => simp [hresult] at hlookup

theorem find_fst (table : MemoTable Value) (position : Nat) :
    (table.find position).1 = table.lookup position := by
  simp only [find]
  by_cases hempty : table.slots.isEmpty
  · simp [hempty, lookup, occupied_of_isEmpty hempty]
  · cases hlookup : table.lookup position <;> simp [hempty]

@[simp]
theorem occupied_find (table : MemoTable Value) (position : Nat) :
    (table.find position).2.occupied = table.occupied := by
  simp only [occupied, slots_find]

theorem lookup_find (table : MemoTable Value) (searched position : Nat) :
    (table.find searched).2.lookup position = table.lookup position := by
  simp only [lookup, occupied_find]

@[simp]
theorem label_find (table : MemoTable Value) (position : Nat) :
    (table.find position).2.label = table.label := by
  by_cases hempty : table.slots.isEmpty
  · simp [find, hempty]
  · cases hlookup : table.lookup position <;> simp [find, hempty, hlookup, label]

@[simp]
theorem serial_find (table : MemoTable Value) (position : Nat) :
    (table.find position).2.serial = table.serial := by
  by_cases hempty : table.slots.isEmpty
  · simp [find, hempty]
  · cases hlookup : table.lookup position <;> simp [find, hempty, hlookup]

@[simp]
theorem last_find (table : MemoTable Value) (position : Nat) :
    (table.find position).2.last = table.last := by
  by_cases hempty : table.slots.isEmpty
  · simp [find, hempty]
  · cases hlookup : table.lookup position <;> simp [find, hempty, hlookup]

/-! ## Reserving -/

@[simp]
theorem label_save (table : MemoTable Value) (position : Nat) :
    (table.save position).2.label = table.label := by
  by_cases hempty : table.slots.isEmpty <;> simp [save, hempty, label]

/-- A table without slots is left as it is; otherwise the new slot bears the next
serial number. -/
theorem save_cases (table : MemoTable Value) (position : Nat) :
    (table.slots = [] ∧ table.save position = (none, table)) ∨
      ∃ evicted,
        (table.save position).1 = some ⟨table.serial + 1, evicted⟩ ∧
          (table.save position).2.serial = table.serial + 1 ∧
            ∀ slot ∈ (table.save position).2.occupied,
              slot = ⟨position, table.serial + 1, none⟩ ∨ slot ∈ table.occupied := by
  by_cases hempty : table.slots.isEmpty
  · exact .inl ⟨List.isEmpty_iff.mp hempty, by simp [save, hempty]⟩
  · right
    refine ⟨_, by simp only [save, hempty]; rfl, by simp [save, hempty], ?_⟩
    intro slot hslot
    simp only [save, hempty, mem_occupied] at hslot ⊢
    rcases List.mem_or_eq_of_mem_set hslot with hold | hnew
    · exact .inr hold
    · exact .inl (Option.some.inj hnew)

/-- The slot after the one reserved last is taken, whatever it holds. -/
theorem slots_save {table : MemoTable Value} (hslots : table.slots ≠ []) (position : Nat) :
    (table.save position).2.slots =
      table.slots.set ((table.last + 1) % table.slots.length)
        (some ⟨position, table.serial + 1, none⟩) := by
  have hempty : table.slots.isEmpty = false := by simpa using hslots
  simp only [save, hempty, Bool.false_eq_true, if_false]

theorem last_save {table : MemoTable Value} (hslots : table.slots ≠ []) (position : Nat) :
    (table.save position).2.last = (table.last + 1) % table.slots.length := by
  have hempty : table.slots.isEmpty = false := by simpa using hslots
  simp only [save, hempty, Bool.false_eq_true, if_false]

/-- The new slot takes the place of one of the old ones, or of none. -/
theorem occupied_save {table : MemoTable Value} (hslots : table.slots ≠ [])
    (position : Nat) :
    ∃ kept : List (Slot Value), kept.Sublist table.occupied ∧
      (table.save position).2.occupied.Perm (⟨position, table.serial + 1, none⟩ :: kept) := by
  let next := (table.last + 1) % table.slots.length
  have hnext : next < table.slots.length := Nat.mod_lt _ (List.length_pos_iff.mpr hslots)
  refine ⟨(table.slots.eraseIdx next).filterMap id, (List.eraseIdx_sublist _ _).filterMap id, ?_⟩
  rw [occupied, slots_save hslots, List.set_eq_take_append_cons_drop, if_pos hnext,
    List.eraseIdx_eq_take_drop_succ, List.filterMap_append, List.filterMap_append]
  exact List.perm_middle

/-! ## Storing -/

@[simp]
theorem label_fill (table : MemoTable Value) (serial : Nat) (part : Phrase Value) :
    (table.fill serial part).label = table.label := rfl

@[simp]
theorem serial_fill (table : MemoTable Value) (serial : Nat) (part : Phrase Value) :
    (table.fill serial part).serial = table.serial := rfl

/-- Only slots of the given serial number are changed, and these now hold the result. -/
theorem mem_occupied_fill {table : MemoTable Value} {serial : Nat}
    {part : Phrase Value} {slot : Slot Value}
    (hslot : slot ∈ (table.fill serial part).occupied) :
    (slot ∈ table.occupied ∧ slot.serial ≠ serial) ∨
      ∃ old ∈ table.occupied,
        old.serial = serial ∧ slot = { old with result := some part } := by
  rw [mem_occupied] at hslot
  simp only [fill, List.mem_map] at hslot
  obtain ⟨slot?, hmember, hslot⟩ := hslot
  obtain ⟨old, rfl, hold⟩ := Option.map_eq_some_iff.mp hslot
  by_cases hserial : old.serial = serial
  · rw [if_pos hserial] at hold
    exact .inr ⟨old, mem_occupied.mpr hmember, hserial, hold.symm⟩
  · rw [if_neg hserial] at hold
    subst hold
    exact .inl ⟨mem_occupied.mpr hmember, hserial⟩

theorem occupied_fill (table : MemoTable Value) (serial : Nat) (part : Phrase Value) :
    (table.fill serial part).occupied =
      table.occupied.map fun slot =>
        if slot.serial = serial then { slot with result := some part } else slot := by
  simp only [fill, occupied, List.filterMap_map, List.map_filterMap]
  rfl

/-! ## Replacing one table -/

theorem getElem?_set_cases {tables : List (MemoTable Value)} {new other : MemoTable Value}
    {index place : Nat} (hother : (tables.set index new)[place]? = some other) :
    (place = index ∧ other = new) ∨ (place ≠ index ∧ tables[place]? = some other) := by
  by_cases hplace : index = place
  · subst hplace
    have hlength := (List.getElem?_eq_some_iff.mp hother).1
    rw [List.getElem?_set_self (by simpa using hlength)] at hother
    exact .inl ⟨rfl, (Option.some.inj hother).symm⟩
  · rw [List.getElem?_set_ne hplace] at hother
    exact .inr ⟨fun h => hplace h.symm, hother⟩

theorem modify_eq_set_of_getElem? {tables : List (MemoTable Value)} {table : MemoTable Value}
    {index : Nat} (change : MemoTable Value → MemoTable Value)
    (htable : tables[index]? = some table) :
    tables.modify index change = tables.set index (change table) := by
  apply List.ext_getElem?
  intro place
  have hindex := (List.getElem?_eq_some_iff.mp htable).1
  by_cases hplace : index = place
  · subst hplace
    rw [List.getElem?_modify_eq, htable, List.getElem?_set_self hindex]
    rfl
  · rw [List.getElem?_modify_ne _ _ hplace, List.getElem?_set_ne hplace]

theorem labels_set {tables : List (MemoTable Value)} {table new : MemoTable Value}
    {index : Nat} (htable : tables[index]? = some table) (hlabel : new.label = table.label) :
    (tables.set index new).map label = tables.map label := by
  apply List.ext_getElem?
  intro place
  have hindex := (List.getElem?_eq_some_iff.mp htable).1
  by_cases hplace : index = place
  · subst hplace
    simp only [List.getElem?_map, List.getElem?_set_self hindex, htable, Option.map_some, hlabel]
  · simp only [List.getElem?_map, List.getElem?_set_ne hplace]

theorem labels_modify (tables : List (MemoTable Value)) (index : Nat)
    {change : MemoTable Value → MemoTable Value}
    (hchange : ∀ table, (change table).label = table.label) :
    (tables.modify index change).map label = tables.map label := by
  apply List.ext_getElem?
  intro place
  simp only [List.getElem?_map, List.getElem?_modify]
  cases tables[place]? with
  | none => rfl
  | some found => by_cases hplace : index = place <;> simp [hplace, hchange]

end MemoTable

end Packrat
