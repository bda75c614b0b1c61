import Mathlib.Data.Nat.ModEq
import Packrat.Proofs.TableSlots

/-!
# The ring of a memo table

The slots of a table hold the reservations with the latest serial numbers, as many as there are
slots, each at the place that its serial number comes to when it is counted round the ring.  So
a reservation evicts another one once there have been as many as there are slots.
-/

namespace Packrat

namespace MemoTable

variable {Value : Type} {table : MemoTable Value}

/-! ## Counters -/

/-- A look-up is counted, and as a hit if it finds anything. -/
theorem counters_find (hslots : table.slots ≠ []) (position : Nat) :
    (table.find position).2.counters =
      { table.counters with
        lookups := table.counters.lookups + 1
        hits := table.counters.hits +
          match table.lookup position with
          | .miss => 0
          | _ => 1 } := by
  have hempty : table.slots.isEmpty = false := by simpa using hslots
  simp only [find, hempty, Bool.false_eq_true, if_false]
  cases table.lookup position <;> rfl

/-- The slot that the next reservation takes. -/
def nextSlot? (table : MemoTable Value) : Option (Slot Value) :=
  table.slots[(table.last + 1) % table.slots.length]?.join

theorem counters_save (hslots : table.slots ≠ []) (position : Nat) :
    (table.save position).2.counters =
      { table.counters with
        saves := table.counters.saves + 1
        evictions := table.counters.evictions + if table.nextSlot?.isSome then 1 else 0 } := by
  have hempty : table.slots.isEmpty = false := by simpa using hslots
  simp only [save, hempty, Bool.false_eq_true, if_false, nextSlot?, Option.isSome_map]
  rfl

theorem serial_save (hslots : table.slots ≠ []) (position : Nat) :
    (table.save position).2.serial = table.serial + 1 := by
  have hempty : table.slots.isEmpty = false := by simpa using hslots
  simp only [save, hempty, Bool.false_eq_true, if_false]

theorem length_occupied (table : MemoTable Value) :
    table.occupied.length = table.slots.countP Option.isSome := by
  rw [occupied, List.length_filterMap_eq_countP]
  rfl

/-- A reservation takes one more slot, or evicts what was there. -/
theorem length_occupied_save (hslots : table.slots ≠ []) (position : Nat) :
    (table.save position).2.occupied.length + (if table.nextSlot?.isSome then 1 else 0) =
      table.occupied.length + 1 := by
  let next := (table.last + 1) % table.slots.length
  have hnext : next < table.slots.length := Nat.mod_lt _ (List.length_pos_iff.mpr hslots)
  have hslot : table.nextSlot? = table.slots[next] := by
    rw [nextSlot?, List.getElem?_eq_getElem hnext]
    rfl
  have hsplit : table.slots = table.slots.take next ++ table.slots[next] ::
      table.slots.drop (next + 1) := by
    rw [← List.drop_eq_getElem_cons hnext, List.take_append_drop]
  have hbefore : table.occupied.length = (table.slots.take next).countP Option.isSome +
      ((table.slots.drop (next + 1)).countP Option.isSome +
        if table.nextSlot?.isSome then 1 else 0) := by
    rw [length_occupied, hslot]
    conv_lhs => rw [hsplit]
    rw [List.countP_append, List.countP_cons]
  have hafter : (table.save position).2.occupied.length =
      (table.slots.take next).countP Option.isSome +
        ((table.slots.drop (next + 1)).countP Option.isSome + 1) := by
    rw [length_occupied, slots_save hslots, List.set_eq_take_append_cons_drop, if_pos hnext,
      List.countP_append, List.countP_cons]
    rfl
  omega

/-! ## The order of the slots -/

/-- The slots are those of the latest reservations, and each is at its place. -/
structure IsRing (table : MemoTable Value) : Prop where
  last_eq : table.last = table.serial % table.slots.length
  recent : ∀ place slot, table.slots[place]? = some (some slot) →
    slot.serial % table.slots.length = place ∧ 0 < slot.serial ∧
      slot.serial ≤ table.serial ∧ table.serial < slot.serial + table.slots.length
  kept : ∀ serial, 0 < serial → serial ≤ table.serial →
    table.serial < serial + table.slots.length →
      ∃ slot, table.slots[serial % table.slots.length]? = some (some slot) ∧
        slot.serial = serial

theorem isRing_empty (name diagnosis : String) (capacity : Nat) :
    (empty name diagnosis capacity : MemoTable Value).IsRing where
  last_eq := (Nat.zero_mod _).symm
  recent place slot hslot := by
    have hmember : some slot ∈ List.replicate capacity none := List.mem_of_getElem? hslot
    exact absurd (List.eq_of_mem_replicate hmember) (Option.some_ne_none slot)
  kept serial hpositive hserial := absurd hserial (Nat.not_le.mpr hpositive)

theorem IsRing.find (hring : table.IsRing) (position : Nat) :
    (table.find position).2.IsRing where
  last_eq := by
    rw [last_find, serial_find, slots_find]
    exact hring.last_eq
  recent := by
    rw [serial_find, slots_find]
    exact hring.recent
  kept := by
    rw [serial_find, slots_find]
    exact hring.kept

/-- Serial numbers that are less than a round apart come to different places. -/
theorem eq_of_mod_eq {count first second : Nat} (hplace : first % count = second % count)
    (hfirst : first < second + count) (hsecond : second < first + count) : first = second := by
  have hmod : first ≡ second [MOD count] := hplace
  apply hmod.eq_of_abs_lt
  rw [abs_lt]
  omega

theorem IsRing.last_add_one (hring : table.IsRing) :
    (table.last + 1) % table.slots.length = (table.serial + 1) % table.slots.length := by
  rw [hring.last_eq, Nat.mod_add_mod]

theorem IsRing.save (hring : table.IsRing) (hslots : table.slots ≠ []) (position : Nat) :
    (table.save position).2.IsRing := by
  have hnext : (table.serial + 1) % table.slots.length < table.slots.length :=
    Nat.mod_lt _ (List.length_pos_iff.mpr hslots)
  have hsaved := slots_save hslots position
  rw [hring.last_add_one] at hsaved
  refine ⟨?_, ?_, ?_⟩
  · rw [last_save hslots, serial_save hslots, length_slots_save, hring.last_add_one]
  · intro place slot hslot
    rw [serial_save hslots, length_slots_save]
    rw [hsaved] at hslot
    by_cases hplace : (table.serial + 1) % table.slots.length = place
    · subst hplace
      rw [List.getElem?_set_self hnext] at hslot
      obtain rfl := Option.some.inj (Option.some.inj hslot)
      exact ⟨rfl, Nat.succ_pos _, Nat.le_refl _,
        Nat.lt_add_of_pos_right (List.length_pos_iff.mpr hslots)⟩
    · rw [List.getElem?_set_ne hplace] at hslot
      obtain ⟨hmod, hpositive, hle, hlt⟩ := hring.recent place slot hslot
      have hround : table.serial + 1 ≠ slot.serial + table.slots.length := by
        intro hsame
        apply hplace
        rw [hsame, Nat.add_mod_right, hmod]
      omega
  · intro serial hpositive hle hlt
    rw [serial_save hslots] at hle hlt
    rw [length_slots_save] at hlt ⊢
    rw [hsaved]
    rcases Nat.le_succ_iff.mp hle with hold | rfl
    · obtain ⟨slot, hslot, hserial⟩ := hring.kept serial hpositive hold (by omega)
      refine ⟨slot, ?_, hserial⟩
      rw [List.getElem?_set_ne, hslot]
      intro hplace
      have hsame := eq_of_mod_eq hplace (by omega) (by omega)
      omega
    · exact ⟨_, List.getElem?_set_self hnext, rfl⟩

theorem IsRing.fill (hring : table.IsRing) (serial : Nat) (part : Phrase Value) :
    (table.fill serial part).IsRing := by
  refine ⟨?_, ?_, ?_⟩
  · rw [length_slots_fill]
    exact hring.last_eq
  · intro place slot hslot
    rw [length_slots_fill]
    simp only [MemoTable.fill, List.getElem?_map, Option.map_eq_some_iff] at hslot
    obtain ⟨_, hold, old, rfl, rfl⟩ := hslot
    have hrecent := hring.recent place old hold
    split <;> exact hrecent
  · intro other hpositive hle hlt
    rw [length_slots_fill] at hlt ⊢
    obtain ⟨slot, hslot, hserial⟩ := hring.kept other hpositive hle hlt
    refine ⟨if slot.serial = serial then { slot with result := some part } else slot, ?_, ?_⟩
    · simp only [MemoTable.fill, List.getElem?_map, hslot, Option.map_some]
    · split <;> exact hserial

/-- A reservation evicts another one once every slot has been reserved. -/
theorem IsRing.nextSlot?_isSome (hring : table.IsRing) (hslots : table.slots ≠ []) :
    table.nextSlot?.isSome = true ↔ table.slots.length ≤ table.serial := by
  have hcount := List.length_pos_iff.mpr hslots
  rw [nextSlot?, hring.last_add_one]
  constructor
  · intro hsome
    obtain ⟨slot, hslot⟩ := Option.isSome_iff_exists.mp hsome
    obtain ⟨hmod, hpositive, hle, hlt⟩ := hring.recent _ slot (Option.join_eq_some_iff.mp hslot)
    by_contra hfew
    have hsame := eq_of_mod_eq hmod (by omega) (by omega)
    omega
  · intro hround
    obtain ⟨slot, hslot, _⟩ := hring.kept (table.serial + 1 - table.slots.length) (by omega)
      (by omega) (by omega)
    rw [← Nat.mod_eq_sub_mod (by omega)] at hslot
    rw [hslot]
    rfl

end MemoTable

end Packrat
