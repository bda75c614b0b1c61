import Packrat.Proofs.Realization
import Packrat.Proofs.TableUsers

/-!
# Evaluation with memory

The tables are in order if every stored result is the phrase that the user of its table
leaves at that position, and every reservation that is still open belongs to an attempt
which needs more steps than the one under way.  The second condition excludes that an
attempt that ends ever meets its own reservation.
-/

namespace Packrat

variable {Value : Type}

/-! ## Tables that grow -/

namespace MemoTable

/-- One table has become the other one by reservations that have all been filled, if
they have not been evicted, with results that are right where they start. -/
structure GrowsInto (right : Nat → Phrase Value → Prop) (old new : MemoTable Value) :
    Prop where
  serial_le : old.serial ≤ new.serial
  old_slot : ∀ slot ∈ new.occupied, slot.serial ≤ old.serial → slot ∈ old.occupied
  new_slot : ∀ slot ∈ new.occupied, old.serial < slot.serial →
    slot.serial ≤ new.serial ∧ ∃ part, slot.result = some part ∧ right slot.start part

variable {right : Nat → Phrase Value → Prop} {first second third : MemoTable Value}

/-- Counting a look-up is no growth. -/
theorem GrowsInto.of_occupied_eq (hoccupied : second.occupied = first.occupied)
    (hserials : second.serial = first.serial)
    (hserial : ∀ slot ∈ first.occupied, slot.serial ≤ first.serial) :
    first.GrowsInto right second where
  serial_le := Nat.le_of_eq hserials.symm
  old_slot _ hslot _ := hoccupied ▸ hslot
  new_slot slot hslot hnew :=
    absurd (hserial slot (hoccupied ▸ hslot)) (Nat.not_le.mpr hnew)

theorem GrowsInto.trans (hfirst : first.GrowsInto right second)
    (hsecond : second.GrowsInto right third) : first.GrowsInto right third where
  serial_le := Nat.le_trans hfirst.serial_le hsecond.serial_le
  old_slot slot hslot hold := by
    apply hfirst.old_slot slot _ hold
    exact hsecond.old_slot slot hslot (Nat.le_trans hold hfirst.serial_le)
  new_slot slot hslot hnew := by
    by_cases hmiddle : slot.serial ≤ second.serial
    · have hkept := hsecond.old_slot slot hslot hmiddle
      obtain ⟨_, hresult⟩ := hfirst.new_slot slot hkept hnew
      exact ⟨Nat.le_trans hmiddle hsecond.serial_le, hresult⟩
    · exact hsecond.new_slot slot hslot (Nat.not_le.mp hmiddle)

/-- A reservation that is filled in the end is growth, whatever has grown meanwhile. -/
theorem GrowsInto.of_reserved {position : Nat} {part : Phrase Value}
    (hserial : second.serial = first.serial + 1)
    (hreserved : ∀ slot ∈ second.occupied,
      slot = ⟨position, first.serial + 1, none⟩ ∨ slot ∈ first.occupied)
    (hfirst : ∀ slot ∈ first.occupied, slot.serial ≤ first.serial)
    (hgrows : second.GrowsInto right third) (hright : right position part) :
    first.GrowsInto right (third.fill (first.serial + 1) part) where
  serial_le := by
    have hle := hgrows.serial_le
    rw [serial_fill]
    omega
  old_slot slot hslot hold := by
    rcases mem_occupied_fill hslot with ⟨hkept, _⟩ | ⟨old, _, hnumber, rfl⟩
    · have hsecond := hgrows.old_slot slot hkept (by omega)
      rcases hreserved slot hsecond with rfl | hmember
      · exact absurd hold (Nat.not_succ_le_self first.serial)
      · exact hmember
    · simp only [hnumber] at hold
      omega
  new_slot slot hslot hnew := by
    rw [serial_fill]
    rcases mem_occupied_fill hslot with ⟨hkept, hother⟩ | ⟨old, hold, hnumber, rfl⟩
    · have hlater : second.serial < slot.serial := by omega
      exact hgrows.new_slot slot hkept hlater
    · have hsecond := hgrows.old_slot old hold (by omega)
      have hle := hgrows.serial_le
      rcases hreserved old hsecond with rfl | hmember
      · exact ⟨by simp only; omega, part, rfl, hright⟩
      · have hbound := hfirst old hmember
        omega

end MemoTable

/-! ## Tables in order -/

namespace Grammar

variable (grammar : Grammar) (source : Source) (semantics : Semantics Value)

/-- The body of an expression that opens its phrase through a table. -/
def tableBody (steps : Nat) (user : Expression) : Attempt Value :=
  .all ((grammar.parts user).map (grammar.attempt source semantics steps))

/-- A part that every user of a table leaves behind where it is attempted. -/
def RightPart (index : Nat) (position : Nat) (part : Phrase Value) : Prop :=
  ∀ user, (index, user) ∈ grammar.users →
    ∃ steps label inside, grammar.tableLabel? index user.isInner = some label ∧
      Attempt.closed source semantics user.enclosure label
        (grammar.tableBody source semantics steps user) position = .ok (inside, part)

structure Remembers (steps : Nat) (tables : List (MemoTable Value)) : Prop where
  labels : tables.map MemoTable.label = grammar.tables
  serial_le : ∀ table ∈ tables, ∀ slot ∈ table.occupied, slot.serial ≤ table.serial
  /-- What is still open needs more steps. -/
  pending : ∀ (index : Nat) (table : MemoTable Value), tables[index]? = some table →
    ∀ slot ∈ table.occupied, slot.result = none →
      ∀ user, (index, user) ∈ grammar.users →
        grammar.attempt source semantics steps user slot.start = .error .exhausted
  right : ∀ (index : Nat) (table : MemoTable Value), tables[index]? = some table →
    ∀ slot ∈ table.occupied, ∀ part, slot.result = some part →
      grammar.RightPart source semantics index slot.start part

/-- Each table has grown by right results only. -/
structure Enriched (before after : List (MemoTable Value)) : Prop where
  labels : after.map MemoTable.label = before.map MemoTable.label
  grows : ∀ (index : Nat) (old new : MemoTable Value),
    before[index]? = some old → after[index]? = some new →
      old.GrowsInto (grammar.RightPart source semantics index) new

variable {grammar source semantics}

/-- Tables with the same labels are there under the same indices. -/
theorem getElem?_of_labels_eq {before after : List (MemoTable Value)}
    (hlabels : after.map MemoTable.label = before.map MemoTable.label) {index : Nat}
    {new : MemoTable Value} (hnew : after[index]? = some new) :
    ∃ old, before[index]? = some old := by
  have hlength : after.length = before.length := by
    simpa using congrArg List.length hlabels
  have hindex := (List.getElem?_eq_some_iff.mp hnew).1
  exact ⟨_, List.getElem?_eq_getElem (hlength ▸ hindex)⟩

theorem Enriched.trans {first second third : List (MemoTable Value)}
    (hfirst : grammar.Enriched source semantics first second)
    (hsecond : grammar.Enriched source semantics second third) :
    grammar.Enriched source semantics first third where
  labels := hsecond.labels.trans hfirst.labels
  grows index old new hold hnew := by
    obtain ⟨middle, hmiddle⟩ := getElem?_of_labels_eq hsecond.labels hnew
    exact (hfirst.grows index old middle hold hmiddle).trans
      (hsecond.grows index middle new hmiddle hnew)

theorem Remembers.enriched_self {steps : Nat} {tables : List (MemoTable Value)}
    (hremembers : grammar.Remembers source semantics steps tables) :
    grammar.Enriched source semantics tables tables where
  labels := rfl
  grows index old new hold hnew := by
    obtain rfl : old = new := Option.some.inj (hold.symm.trans hnew)
    exact .of_occupied_eq rfl rfl (hremembers.serial_le old (List.mem_of_getElem? hold))

theorem Remembers.of_enriched {steps : Nat} {before after : List (MemoTable Value)}
    (hremembers : grammar.Remembers source semantics steps before)
    (henriched : grammar.Enriched source semantics before after) :
    grammar.Remembers source semantics steps after where
  labels := henriched.labels.trans hremembers.labels
  serial_le new hmember slot hslot := by
    obtain ⟨index, hnew⟩ := List.mem_iff_getElem?.mp hmember
    obtain ⟨old, hold⟩ := getElem?_of_labels_eq henriched.labels hnew
    have hgrows := henriched.grows index old new hold hnew
    by_cases hserial : slot.serial ≤ old.serial
    · exact Nat.le_trans hserial hgrows.serial_le
    · exact (hgrows.new_slot slot hslot (Nat.not_le.mp hserial)).1
  pending index new hnew slot hslot hresult := by
    obtain ⟨old, hold⟩ := getElem?_of_labels_eq henriched.labels hnew
    have hgrows := henriched.grows index old new hold hnew
    by_cases hserial : slot.serial ≤ old.serial
    · exact hremembers.pending index old hold slot
        (hgrows.old_slot slot hslot hserial) hresult
    · obtain ⟨_, part, hpart, _⟩ :=
        hgrows.new_slot slot hslot (Nat.not_le.mp hserial)
      rw [hresult] at hpart
      contradiction
  right index new hnew slot hslot part hresult := by
    obtain ⟨old, hold⟩ := getElem?_of_labels_eq henriched.labels hnew
    have hgrows := henriched.grows index old new hold hnew
    by_cases hserial : slot.serial ≤ old.serial
    · exact hremembers.right index old hold slot
        (hgrows.old_slot slot hslot hserial) part hresult
    · obtain ⟨_, stored, hstored, hright⟩ :=
        hgrows.new_slot slot hslot (Nat.not_le.mp hserial)
      obtain rfl : stored = part := Option.some.inj (hstored.symm.trans hresult)
      exact hright

/-- Fewer steps leave more reservations out of reach. -/
theorem Remembers.mono {steps more : Nat} {tables : List (MemoTable Value)}
    (hremembers : grammar.Remembers source semantics more tables) (hsteps : steps ≤ more) :
    grammar.Remembers source semantics steps tables where
  labels := hremembers.labels
  serial_le := hremembers.serial_le
  pending index table htable slot hslot hresult user huser := by
    by_contra hends
    have hextended :=
      grammar.attempt_extendedBy source semantics hsteps user slot.start hends
    have hexhausted := hremembers.pending index table htable slot hslot hresult user huser
    exact hends (hextended.symm.trans hexhausted)
  right := hremembers.right

end Grammar

/-- The tables are in order for attempts of at most so many steps. -/
def Regime.remembering (grammar : Grammar) (source : Source) (semantics : Semantics Value)
    (steps : Nat) : Regime Value where
  Ready := grammar.Remembers source semantics steps
  Kept := grammar.Enriched source semantics
  lockstep := False
  kept_refl := Grammar.Remembers.enriched_self
  kept_trans := Grammar.Enriched.trans
  ready_of_kept := Grammar.Remembers.of_enriched

end Packrat
