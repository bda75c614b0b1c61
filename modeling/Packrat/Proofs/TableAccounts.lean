import Packrat.Proofs.Coherence
import Packrat.Proofs.Ring
import Packrat.Proofs.TraceAgreement

/-!
# What a memo table accounts for

If the phrases of a rule are opened through one table alone, then the counters of this table
and those of the rule tell the same story: a phrase is opened for every reservation, and a
result is taken for every hit.  The body of the rule is entered again where it was entered
before only if its result has been evicted in the meantime.
-/

namespace Packrat

variable {Value : Type} {setting : Setting Value}

/-! ## One table -/

namespace MemoTable

/-- The counters and the slots of a table account for the calls of a rule, for the results
that were taken instead, and for where the calls were made. -/
structure Accounts (table : MemoTable Value) (calls reused : Nat) (entered : Nat → Prop) :
    Prop where
  ring : table.IsRing
  serial_eq : table.serial = calls
  saves_eq : table.counters.saves = calls
  hits_eq : table.counters.hits = reused
  lookups_eq : table.counters.lookups = calls + reused
  evictions_eq : table.counters.evictions = calls - table.slots.length
  evictions_add : table.counters.evictions + table.occupied.length = calls
  starts_nodup : (table.occupied.map Slot.start).Nodup
  starts_entered : ∀ slot ∈ table.occupied, entered slot.start

variable {table : MemoTable Value} {calls reused : Nat} {entered : Nat → Prop}

theorem accounts_empty (name diagnosis : String) (capacity : Nat) (entered : Nat → Prop) :
    (empty name diagnosis capacity : MemoTable Value).Accounts 0 0 entered := by
  have hoccupied : (empty name diagnosis capacity : MemoTable Value).occupied = [] :=
    occupied_empty name diagnosis capacity
  refine ⟨isRing_empty name diagnosis capacity, rfl, rfl, rfl, rfl, ?_, ?_, ?_, ?_⟩
  · exact (Nat.zero_sub _).symm
  · rw [hoccupied]
    rfl
  · rw [hoccupied]
    exact List.nodup_nil
  · rw [hoccupied]
    exact fun slot hslot => absurd hslot List.not_mem_nil

/-- What is found is taken in place of a call. -/
theorem Accounts.found (haccounts : table.Accounts calls reused entered)
    (hslots : table.slots ≠ []) {position : Nat} (hfound : table.lookup position ≠ .miss) :
    (table.find position).2.Accounts calls (reused + 1) entered := by
  have hcounters : (table.find position).2.counters =
      { table.counters with
        lookups := table.counters.lookups + 1
        hits := table.counters.hits + 1 } := by
    rw [counters_find hslots]
    cases hlookup : table.lookup position with
    | miss => exact absurd hlookup hfound
    | pending | hit => rfl
  constructor
  · exact haccounts.ring.find position
  · rw [serial_find, haccounts.serial_eq]
  · rw [hcounters, haccounts.saves_eq]
  · rw [hcounters, haccounts.hits_eq]
  · rw [hcounters, haccounts.lookups_eq, Nat.add_assoc]
  · rw [hcounters, slots_find, haccounts.evictions_eq]
  · rw [hcounters, occupied_find, haccounts.evictions_add]
  · rw [occupied_find]
    exact haccounts.starts_nodup
  · rw [occupied_find]
    exact haccounts.starts_entered

/-- Where nothing is found, a slot is reserved for the call that is made. -/
theorem Accounts.missed (haccounts : table.Accounts calls reused entered)
    (hslots : table.slots ≠ []) {position : Nat} (hmiss : table.lookup position = .miss) :
    ((table.find position).2.save position).2.Accounts (calls + 1) reused
      fun start => start = position ∨ entered start := by
  have hfound : (table.find position).2.slots ≠ [] := by rwa [slots_find]
  have hring := haccounts.ring.find position
  have hround := hring.nextSlot?_isSome hfound
  have hlength := length_occupied_save hfound position
  have hcounters := counters_save hfound position
  rw [counters_find hslots, hmiss] at hcounters
  rw [slots_find, serial_find, haccounts.serial_eq] at hround
  rw [occupied_find] at hlength
  have hevictions := haccounts.evictions_eq
  have hadd := haccounts.evictions_add
  obtain ⟨kept, hkept, hperm⟩ := occupied_save hfound position
  rw [occupied_find] at hkept
  constructor
  · exact hring.save hfound position
  · rw [serial_save hfound, serial_find, haccounts.serial_eq]
  · rw [hcounters, haccounts.saves_eq]
  · rw [hcounters]
    exact haccounts.hits_eq
  · rw [hcounters, haccounts.lookups_eq, Nat.add_right_comm]
  · rw [hcounters, length_slots_save, slots_find]
    simp only [hround]
    split <;> omega
  · rw [hcounters]
    dsimp only
    omega
  · exact nodup_map_of_perm_cons hperm hkept haccounts.starts_nodup
      fun slot hslot => start_ne_of_lookup_eq_miss hmiss hslot
  · intro slot hslot
    rcases List.mem_cons.mp (hperm.mem_iff.mp hslot) with rfl | hold
    · exact .inl rfl
    · exact .inr (haccounts.starts_entered slot (hkept.subset hold))

theorem Accounts.fill (haccounts : table.Accounts calls reused entered) (serial : Nat)
    (part : Phrase Value) : (table.fill serial part).Accounts calls reused entered where
  ring := haccounts.ring.fill serial part
  serial_eq := haccounts.serial_eq
  saves_eq := haccounts.saves_eq
  hits_eq := haccounts.hits_eq
  lookups_eq := haccounts.lookups_eq
  evictions_eq := by
    rw [length_slots_fill]
    exact haccounts.evictions_eq
  evictions_add := by
    rw [occupied_fill, List.length_map]
    exact haccounts.evictions_add
  starts_nodup := by
    rw [map_occupied_fill fun _ _ => rfl]
    exact haccounts.starts_nodup
  starts_entered slot hslot := by
    rcases mem_occupied_fill hslot with ⟨hkept, _⟩ | ⟨old, hold, _, rfl⟩
    · exact haccounts.starts_entered slot hkept
    · exact haccounts.starts_entered old hold

theorem Accounts.mono (haccounts : table.Accounts calls reused entered) {visited : Nat → Prop}
    (hvisited : ∀ start, entered start → visited start) :
    table.Accounts calls reused visited :=
  { haccounts with
    starts_entered := fun slot hslot => hvisited _ (haccounts.starts_entered slot hslot) }

/-- The slots are for different positions, all of which the rule was called at. -/
theorem Accounts.length_occupied_le (haccounts : table.Accounts calls reused entered)
    {positions : List Nat} (hpositions : ∀ start, entered start → start ∈ positions) :
    table.occupied.length ≤ positions.toFinset.card := by
  have hsubset : (table.occupied.map Slot.start).toFinset ⊆ positions.toFinset := by
    intro start hstart
    obtain ⟨slot, hslot, rfl⟩ := List.mem_map.mp (List.mem_toFinset.mp hstart)
    exact List.mem_toFinset.mpr (hpositions _ (haccounts.starts_entered slot hslot))
  have hcard := Finset.card_le_card hsubset
  rwa [List.toFinset_card_of_nodup haccounts.starts_nodup, List.length_map] at hcard

end MemoTable

/-! ## All tables and the counters of a rule -/

/-- Two states of the counters say the same about the calls of a rule. -/
structure Counters.AgreeOn (name : String) (counters later : Counters) : Prop where
  calls_eq : (later.rule name).calls = (counters.rule name).calls
  reused_eq : (later.rule name).reused = (counters.rule name).reused
  visited_iff : ∀ start, (name, start) ∈ later.visited ↔ (name, start) ∈ counters.visited

/-- The posting is about a call of a rule, or about a result that is taken instead. -/
def Posting.concerns (name : String) : Posting → Bool
  | .opened title _ _ | .reused title => title == name
  | _ => false

namespace Books

variable {books : Books} {name : String}

theorem agreeOn_post (hname : name ≠ "") {posting : Posting}
    (hposting : posting.concerns name = false) :
    books.counters.AgreeOn name (books.post posting).counters := by
  cases posting with
  | opened title diagnosis start =>
      have hother : title ≠ name := by simpa [Posting.concerns] using hposting
      have hrule := books.rule_post_opened hname title diagnosis start
      rw [if_neg hother] at hrule
      refine ⟨by rw [hrule], by rw [hrule], fun position => ?_⟩
      rw [mem_visited_post_opened hname]
      simp [hother]
  | closed closing cursor =>
      cases hunclosed : books.unclosed with
      | nil =>
          simp only [post, hunclosed]
          exact ⟨rfl, rfl, fun _ => .rfl⟩
      | cons bracket outer =>
          simp only [post, hunclosed]
          split
          · exact ⟨rfl, rfl, fun _ => .rfl⟩
          · obtain ⟨_, _, hrule⟩ :=
              books.counters.exists_rule_finish bracket.title name closing.succeeds
            exact ⟨by rw [hrule], by rw [hrule], fun _ => .rfl⟩
  | reused title =>
      have hother : title ≠ name := by simpa [Posting.concerns] using hposting
      have hrule := books.rule_post_reused hname title
      rw [if_neg hother] at hrule
      exact ⟨by rw [hrule], by rw [hrule], fun _ => by rw [visited_post_reused]⟩
  | nothing => exact ⟨rfl, rfl, fun _ => .rfl⟩

end Books

/-- The tables all have the same number of slots, and the one at an index accounts for the rule
it is named after.  Before it is registered, there is nothing to account for. -/
structure TableAccounts (name : String) (index capacity : Nat)
    (tables : List (MemoTable Value)) (counters : Counters) : Prop where
  length_eq : ∀ table ∈ tables, table.slots.length = capacity
  unregistered : tables.length ≤ index →
    (counters.rule name).calls = 0 ∧ (counters.rule name).reused = 0
  registered : ∀ table, tables[index]? = some table → table.name = name →
    table.Accounts (counters.rule name).calls (counters.rule name).reused
      fun start => (name, start) ∈ counters.visited

namespace TableAccounts

variable {name : String} {index capacity : Nat} {tables : List (MemoTable Value)}
variable {counters later : Counters}

/-- Whatever does not concern the rule leaves the accounts as they are. -/
theorem agree (haccounts : TableAccounts name index capacity tables counters)
    (hagree : counters.AgreeOn name later) :
    TableAccounts name index capacity tables later where
  length_eq := haccounts.length_eq
  unregistered hindex := by
    rw [hagree.calls_eq, hagree.reused_eq]
    exact haccounts.unregistered hindex
  registered table htable hname := by
    rw [hagree.calls_eq, hagree.reused_eq]
    exact (haccounts.registered table htable hname).mono
      fun start hstart => (hagree.visited_iff start).mpr hstart

theorem addTable (haccounts : TableAccounts name index capacity tables counters)
    (title diagnosis : String) :
    TableAccounts name index capacity (tables ++ [.empty title diagnosis capacity])
      counters where
  length_eq table htable := by
    rcases List.mem_append.mp htable with hold | hnew
    · exact haccounts.length_eq table hold
    · rw [List.mem_singleton.mp hnew]
      exact List.length_replicate
  unregistered hindex := by
    rw [List.length_append] at hindex
    exact haccounts.unregistered (Nat.le_of_add_right_le hindex)
  registered table htable hname := by
    by_cases hindex : index < tables.length
    · rw [List.getElem?_append_left hindex] at htable
      exact haccounts.registered table htable hname
    · rw [List.getElem?_append_right (Nat.not_lt.mp hindex)] at htable
      obtain rfl := List.mem_singleton.mp (List.mem_of_getElem? htable)
      obtain ⟨hcalls, hreused⟩ := haccounts.unregistered (Nat.not_lt.mp hindex)
      rw [hcalls, hreused]
      exact MemoTable.accounts_empty _ _ _ _

/-- A table is changed along with the counters, or the counters of the rule stay the same. -/
theorem set (haccounts : TableAccounts name index capacity tables counters)
    {old new : MemoTable Value} {place : Nat} (hold : tables[place]? = some old)
    (hlength : new.slots.length = old.slots.length) (hlabel : new.label = old.label)
    (hplace : place = index → old.name = name →
      old.Accounts (counters.rule name).calls (counters.rule name).reused
        (fun start => (name, start) ∈ counters.visited) →
      new.Accounts (later.rule name).calls (later.rule name).reused
        fun start => (name, start) ∈ later.visited)
    (hother : place ≠ index ∨ old.name ≠ name → counters.AgreeOn name later) :
    TableAccounts name index capacity (tables.set place new) later where
  length_eq table htable := by
    rcases List.mem_or_eq_of_mem_set htable with hmember | rfl
    · exact haccounts.length_eq table hmember
    · rw [hlength]
      exact haccounts.length_eq old (List.mem_of_getElem? hold)
  unregistered hindex := by
    rw [List.length_set] at hindex
    have hagree := hother (.inl (by
      rintro rfl
      exact absurd (List.getElem?_eq_some_iff.mp hold).1 (Nat.not_lt.mpr hindex)))
    rw [hagree.calls_eq, hagree.reused_eq]
    exact haccounts.unregistered hindex
  registered table htable hname := by
    rcases MemoTable.getElem?_set_cases htable with ⟨rfl, rfl⟩ | ⟨hne, htable⟩
    · have hnamed : old.name = name := by
        rw [← hname]
        exact congrArg TableLabel.name hlabel.symm
      exact hplace rfl hnamed (haccounts.registered old hold hnamed)
    · exact (haccounts.agree (hother (.inl hne.symm))).registered table htable hname

theorem filled (haccounts : TableAccounts name index capacity tables counters)
    (ticket : Option Ticket) (part : Phrase Value) :
    TableAccounts name index capacity (Machine.filled ticket part tables) counters := by
  cases ticket with
  | none => exact haccounts
  | some ticket =>
      simp only [Machine.filled]
      cases htable : tables[ticket.table]? with
      | none =>
          rw [List.modify_eq_self (List.getElem?_eq_none_iff.mp htable)]
          exact haccounts
      | some table =>
          rw [MemoTable.modify_eq_set_of_getElem? _ htable]
          exact haccounts.set htable (MemoTable.length_slots_fill _ _ _) rfl
            (fun _ _ hold => hold.fill _ _) fun _ => ⟨rfl, rfl, fun _ => .rfl⟩

end TableAccounts

/-! ## Steps -/

/-- A primitive does not open phrases of a rule except through one table, and this table is
asked for nothing else. -/
def Core.opensThrough (name : String) (index : Nat) (core : Core Value) : Primitive → Bool
  | .begin title _ => title != name
  | .consult place inner =>
      if place = index then !inner
      else inner || core.tables[place]?.map MemoTable.name != some name
  | _ => true

namespace Core

variable {name : String} {index : Nat} {core core' : Core Value} {primitive : Primitive}
variable {result : Option Bool}

/-- A look-up concerns the rule only if it is made in the table of the rule. -/
theorem concerns_of_consult {place : Nat} {inner : Bool} {table : MemoTable Value}
    (hname : name ≠ "") (hopens : core.opensThrough name index (.consult place inner) = true)
    (htable : core.tables[place]? = some table) (result : Option Bool) :
    (core.posting (.consult place inner) result).concerns name =
      (place == index && table.name == name) := by
  simp only [opensThrough, htable, Option.map_some] at hopens
  have hconcerns : (core.posting (.consult place inner) result).concerns name =
      ((if inner then "" else table.name) == name) := by
    simp only [posting, htable]
    split <;> rfl
  have hinner : ("" == name) = false := beq_eq_false_iff_ne.mpr hname.symm
  rw [hconcerns]
  by_cases hplace : place = index
  · have houter : inner = false := by simpa [hplace] using hopens
    simp [hplace, houter]
  · rw [if_neg hplace] at hopens
    cases inner with
    | true => simp [hplace, hinner]
    | false =>
        have hother : table.name ≠ name := by simpa using hopens
        simp [hplace, hother]

/-- What the look-up in the table of a rule is posted as. -/
theorem posting_of_consult {inner : Bool} {table : MemoTable Value}
    (hopens : core.opensThrough name index (.consult index inner) = true)
    (htable : core.tables[index]? = some table) (hnamed : table.name = name) (found : Bool) :
    core.posting (.consult index inner) (some found) =
      if found then .reused name else .opened name table.diagnosis core.position := by
  have houter : inner = false := by simpa [opensThrough] using hopens
  simp only [posting, htable, houter, hnamed, Option.some.injEq, Bool.false_eq_true, if_false]

end Core

namespace TableAccounts

variable {name : String} {index : Nat} {core core' : Core Value} {primitive : Primitive}
variable {result : Option Bool} {books : Books}

/-- A look-up that is answered by a result. -/
theorem found (hname : name ≠ "") (hcapacity : 0 < setting.capacity.value)
    (haccounts : TableAccounts name index setting.capacity.value core.tables books.counters)
    {place : Nat} {inner : Bool}
    (hopens : core.opensThrough name index (.consult place inner) = true) {table : MemoTable Value}
    (htable : core.tables[place]? = some table)
    (hfound : table.lookup core.position ≠ .miss) :
    TableAccounts name index setting.capacity.value
      (core.tables.set place (table.find core.position).2)
      (books.post (core.posting (.consult place inner) (some true))).counters := by
  have hslots : table.slots ≠ [] := by
    rw [← List.length_pos_iff, haccounts.length_eq table (List.mem_of_getElem? htable)]
    exact hcapacity
  refine haccounts.set htable (congrArg List.length (MemoTable.slots_find _ _))
    (MemoTable.label_find _ _) ?_ ?_
  · rintro rfl hnamed hold
    rw [Core.posting_of_consult hopens htable hnamed, if_pos rfl,
      Books.rule_post_reused _ hname, if_pos rfl, Books.visited_post_reused]
    exact hold.found hslots hfound
  · intro hother
    apply Books.agreeOn_post hname
    rw [Core.concerns_of_consult hname hopens htable]
    rcases hother with hplace | htitle
    · simp [hplace]
    · simp [htitle]

/-- A look-up that has a phrase opened. -/
theorem missed (hname : name ≠ "") (hcapacity : 0 < setting.capacity.value)
    (haccounts : TableAccounts name index setting.capacity.value core.tables books.counters)
    {place : Nat} {inner : Bool}
    (hopens : core.opensThrough name index (.consult place inner) = true) {table : MemoTable Value}
    (htable : core.tables[place]? = some table)
    (hmiss : table.lookup core.position = .miss) :
    TableAccounts name index setting.capacity.value
      (core.tables.set place ((table.find core.position).2.save core.position).2)
      (books.post (core.posting (.consult place inner) (some false))).counters := by
  have hslots : table.slots ≠ [] := by
    rw [← List.length_pos_iff, haccounts.length_eq table (List.mem_of_getElem? htable)]
    exact hcapacity
  refine haccounts.set htable (by simp) (by simp) ?_ ?_
  · rintro rfl hnamed hold
    rw [Core.posting_of_consult hopens htable hnamed, if_neg Bool.false_ne_true,
      Books.rule_post_opened _ hname, if_pos rfl]
    refine (hold.missed hslots hmiss).mono fun start hstart => ?_
    rw [Books.mem_visited_post_opened hname]
    exact hstart.imp_left fun hsame => ⟨rfl, hsame⟩
  · intro hother
    apply Books.agreeOn_post hname
    rw [Core.concerns_of_consult hname hopens htable]
    rcases hother with hplace | htitle
    · simp [hplace]
    · simp [htitle]

/-- Every step keeps the accounts, as long as the rule is opened through its table. -/
theorem step (books : Books) (hname : name ≠ "") (hcapacity : 0 < setting.capacity.value)
    (haccounts : TableAccounts name index setting.capacity.value core.tables books.counters)
    (hopens : core.opensThrough name index primitive = true)
    (hstep : Core.Step setting primitive core result core') :
    TableAccounts name index setting.capacity.value core'.tables
      (books.post (core.posting primitive result)).counters := by
  cases hstep with
  | addTable _ title diagnosis => exact haccounts.addTable title diagnosis
  | begin _ title diagnosis =>
      have hother := beq_eq_false_iff_ne.mpr (bne_iff_ne.mp hopens)
      exact haccounts.agree (Books.agreeOn_post hname hother)
  | close => exact (haccounts.agree (Books.agreeOn_post hname rfl)).filled _ _
  | terminal _ hattempt =>
      rw [Core.posting_of_attempt? hattempt]
      exact haccounts
  | hit _ inner htable hlookup =>
      exact found hname hcapacity haccounts hopens htable (by simp [hlookup])
  | pending _ inner htable hlookup =>
      exact found hname hcapacity haccounts hopens htable (by simp [hlookup])
  | miss _ inner htable hlookup => exact missed hname hcapacity haccounts hopens htable hlookup
  | reuse => exact haccounts

end TableAccounts

/-! ## Histories -/

/-- The deed is done inside a parse, and writes no event of its own. -/
def Deed.isInside : Deed Value → Bool
  | .perform _ => true
  | .note entry => entry.event?.isNone
  | _ => false

def Deed.opensThrough (name : String) (index : Nat) (machine : Machine Value) :
    Deed Value → Bool
  | .perform primitive => machine.core.opensThrough name index primitive
  | _ => true

theorem Deed.isSilent_of_isInside {deed : Deed Value} (hinside : deed.isInside = true) :
    deed.isSilent = true := by
  cases deed with
  | note entry => exact hinside
  | _ => rfl

namespace Machine

/-- In the course of a history, phrases of a rule are opened through one table alone. -/
def opensThrough (setting : Setting Value) (name : String) (index : Nat) :
    Machine Value → List (Deed Value) → Bool
  | _, [] => true
  | machine, deed :: rest =>
      deed.opensThrough name index machine &&
        opensThrough setting name index (deed.after setting machine) rest

variable {machine : Machine Value} {name : String} {index : Nat}

theorem tableAccounts_after (hname : name ≠ "") (hcapacity : 0 < setting.capacity.value)
    {primitive : Primitive} (hopens : machine.core.opensThrough name index primitive = true)
    (haccounts : TableAccounts name index setting.capacity.value machine.tables
      machine.counters) :
    let later := Deed.after setting machine (.perform primitive)
    TableAccounts name index setting.capacity.value later.tables later.counters := by
  intro later
  simp only [later, Deed.after]
  cases hperform : perform setting primitive machine with
  | finished result after =>
      have hcounters := congrArg Books.counters (books_of_perform hperform)
      have hstep := TableAccounts.step machine.books hname hcapacity haccounts hopens
        (step_of_perform hperform)
      rw [← hcounters] at hstep
      exact hstep
  | faulted cause after =>
      have htables := tables_of_fault hperform
      have hcounters : after.counters = machine.counters := by
        rcases books_of_fault hperform with rfl | ⟨_, hbooks⟩
        · rfl
        · exact congrArg Books.counters hbooks
      simp only [Outcome.left?, Option.getD_some, htables, hcounters]
      exact haccounts
  | exhausted => exact haccounts

theorem tableAccounts_afterAll (hname : name ≠ "") (hcapacity : 0 < setting.capacity.value)
    {history : List (Deed Value)} (hinside : ∀ deed ∈ history, deed.isInside = true)
    (hopens : machine.opensThrough setting name index history = true)
    (haccounts : TableAccounts name index setting.capacity.value machine.tables
      machine.counters) :
    let later := machine.afterAll setting history
    TableAccounts name index setting.capacity.value later.tables later.counters := by
  induction history generalizing machine with
  | nil => exact haccounts
  | cons deed rest ih =>
      rw [List.forall_mem_cons] at hinside
      rw [opensThrough, Bool.and_eq_true] at hopens
      refine ih hinside.2 hopens.2 ?_
      cases deed with
      | perform primitive => exact tableAccounts_after hname hcapacity hopens.1 haccounts
      | note entry => exact haccounts
      | start | conclude => exact absurd hinside.1 Bool.false_ne_true

/-- When a parse begins, no table has anything to account for. -/
theorem tableAccounts_start (setting : Setting Value) (machine : Machine Value) :
    let started := machine.start setting
    TableAccounts name index setting.capacity.value started.tables started.counters := by
  intro started
  have hempty : ∀ table ∈ started.tables, ∃ title diagnosis,
      table = MemoTable.empty title diagnosis setting.capacity.value := by
    intro table htable
    obtain ⟨old, _, rfl⟩ := List.mem_map.mp htable
    exact ⟨old.name, old.diagnosis, rfl⟩
  refine ⟨fun table htable => ?_, fun _ => ⟨rfl, rfl⟩, fun table htable _ => ?_⟩
  · obtain ⟨title, diagnosis, rfl⟩ := hempty table htable
    exact List.length_replicate
  · obtain ⟨title, diagnosis, rfl⟩ := hempty table (List.mem_of_getElem? htable)
    exact MemoTable.accounts_empty title diagnosis _ _

/-- While a rule is opened through one table alone, that table makes a reservation for every
call of the rule and has a hit for every result that is taken in place of a call.  As many
reservations have been evicted as exceed the slots, and at least as many as there were calls
where the rule had been called before; so nothing is called twice as long as nothing has been
evicted. -/
theorem table_accounts_for_rule (setting : Setting Value) (machine : Machine Value)
    {name : String} (hname : name ≠ "") (hcapacity : 0 < setting.capacity.value) {index : Nat}
    {history : List (Deed Value)} (hinside : ∀ deed ∈ history, deed.isInside = true)
    (hopens : (machine.start setting).opensThrough setting name index history = true) :
    let reached := (machine.start setting).afterAll setting history
    ∀ table, reached.tables[index]? = some table → table.name = name →
      let counted := reached.counters.rule name
      let entrances := Event.entrances name (eventsOf reached.journal.entries)
      table.counters.saves = counted.calls ∧
        table.counters.hits = counted.reused ∧
        table.counters.lookups = counted.calls + counted.reused ∧
        table.counters.evictions + table.occupied.length = table.counters.saves ∧
        table.counters.evictions = table.counters.saves - setting.capacity.value ∧
        counted.rescanned ≤ table.counters.evictions ∧
        counted.calls = entrances.length ∧
        (table.counters.evictions = 0 → entrances.Nodup) := by
  intro reached table htable hnamed counted entrances
  have hcovered := tableAccounts_afterAll hname hcapacity hinside hopens
    (tableAccounts_start setting machine)
  have haccounts : table.Accounts counted.calls counted.reused
      fun start => (name, start) ∈ reached.counters.visited :=
    hcovered.registered table htable hnamed
  have hlength : table.slots.length = setting.capacity.value :=
    hcovered.length_eq table (List.mem_of_getElem? htable)
  have htallies : reached.books.Tallies name :=
    tallies_afterAll hname (fun deed hdeed => Deed.isSilent_of_isInside (hinside deed hdeed))
      (Books.tallies_empty name)
  have hentrances : Event.entrances name reached.books.brackets = entrances :=
    Event.entrances_filter name _
  have hcalls : counted.calls = entrances.length := hentrances ▸ htallies.calls_eq
  have hrescanned : counted.rescanned + entrances.toFinset.card = entrances.length :=
    hentrances ▸ htallies.rescanned_add
  have hdistinct : table.occupied.length ≤ entrances.toFinset.card :=
    haccounts.length_occupied_le fun start hstart =>
      hentrances ▸ (htallies.visited_iff start).mp hstart
  have hadd := haccounts.evictions_add
  have hagain : counted.rescanned ≤ table.counters.evictions := by omega
  refine ⟨haccounts.saves_eq, haccounts.hits_eq, haccounts.lookups_eq, ?_, ?_, hagain, hcalls, ?_⟩
  · rw [haccounts.saves_eq, hadd]
  · rw [haccounts.saves_eq, ← hlength]
    exact haccounts.evictions_eq
  · intro hnone
    have hcard : entrances.toFinset.card = entrances.length := by omega
    exact Multiset.toFinset_card_eq_card_iff_nodup.mp hcard

/-- The first of two letters is called again after its result has been evicted by the second
one, and then taken from the table. -/
theorem table_accounts_for_rule_letters :
    let setting : Setting Nat := ⟨.ofText "ab", .empty, ⟨1, by decide⟩⟩
    let machine := Machine.initial.addTable setting "letter" "a letter"
    let call (letter : Char) : List (Deed Nat) :=
      [.perform (.consult 0 false), .perform (.next (.character letter)),
        .perform (.close .accept)]
    let history : List (Deed Nat) :=
      .perform (.begin "" "a pair") :: call 'a' ++ call 'b' ++
        [.perform (.close .rejectInner), .perform (.begin "" "a letter")] ++ call 'a' ++
        [.perform (.close .acceptAnd), .perform (.consult 0 false), .perform (.reuse .rule)]
    let reached := (machine.start setting).afterAll setting history
    ∃ table, reached.tables[0]? = some table ∧ table.counters = ⟨4, 1, 3, 2⟩ ∧
      reached.counters.rule "letter" = ⟨3, 3, 0, 1, 1⟩ ∧
      (Event.entrances "letter" (eventsOf reached.journal.entries)).length = 3 ∧
      table.counters.evictions = table.counters.saves - 1 ∧
      (reached.counters.rule "letter").rescanned ≤ table.counters.evictions := by
  intro setting machine call history reached
  have hreached : reached.tables[0]?.map (fun table => (table.name, table.counters)) =
      some ("letter", ⟨4, 1, 3, 2⟩) := by
    decide +kernel
  obtain ⟨table, htable, hpair⟩ := Option.map_eq_some_iff.mp hreached
  obtain ⟨hnamed, hcounters⟩ := Prod.mk.inj hpair
  have hcounted : reached.counters.rule "letter" = ⟨3, 3, 0, 1, 1⟩ := by decide +kernel
  have hinside : ∀ deed ∈ history, deed.isInside = true := by decide
  obtain ⟨_, _, _, _, hevictions, hagain, hcalls, _⟩ :=
    table_accounts_for_rule setting machine (by decide) (by decide) hinside (by decide +kernel)
      table htable hnamed
  refine ⟨table, htable, hcounters, hcounted, ?_, hevictions, hagain⟩
  rw [← hcalls]
  exact congrArg RuleCounters.calls hcounted

end Machine

end Packrat
