import Packrat.Proofs.ParseAnswer
import Packrat.Proofs.Remembering

/-!
# Memory does not change what is parsed

An evaluation with memo tables follows the attempt wherever that ends, because a result
that is found is the one that would be computed.  As an evaluation without memory ends
exactly where the attempt does, a parse that ends without memory ends in the same way
with memory of any capacity.
-/

namespace Packrat

variable {Value : Type}

namespace Grammar

variable {grammar : Grammar} {source : Source} {semantics : Semantics Value}
variable {steps index position : Nat} {tables : List (MemoTable Value)}
variable {table : MemoTable Value}

theorem Remembers.slot_serial_le
    (hremembers : grammar.Remembers source semantics steps tables)
    (htable : tables[index]? = some table) :
    ∀ slot ∈ table.occupied, slot.serial ≤ table.serial :=
  hremembers.serial_le table (List.mem_of_getElem? htable)

/-- A look-up that is only counted leaves the tables in order. -/
theorem Remembers.enriched_find
    (hremembers : grammar.Remembers source semantics steps tables)
    (htable : tables[index]? = some table) :
    grammar.Enriched source semantics tables
      (tables.set index (table.find position).2) where
  labels := MemoTable.labels_set htable (MemoTable.label_find table position)
  grows place old new hold hnew := by
    rcases MemoTable.getElem?_set_cases hnew with ⟨rfl, rfl⟩ | ⟨_, hsame⟩
    · obtain rfl : table = old := Option.some.inj (htable.symm.trans hold)
      exact .of_occupied_eq (MemoTable.occupied_find table position)
        (MemoTable.serial_find table position) (hremembers.slot_serial_le htable)
    · exact hremembers.enriched_self.grows place old new hold hsame

/-- A reservation for attempts that need more steps. -/
theorem Remembers.set_save
    (hremembers : grammar.Remembers source semantics steps tables)
    (htable : tables[index]? = some table)
    (hpending : ∀ user, (index, user) ∈ grammar.users →
      grammar.attempt source semantics steps user position = .error .exhausted) :
    grammar.Remembers source semantics steps
      (tables.set index ((table.find position).2.save position).2) := by
  rcases MemoTable.save_cases (table.find position).2 position with
    ⟨_, hsave⟩ | ⟨evicted, _, hserial, hslots⟩
  · rw [hsave]
    exact hremembers.of_enriched (hremembers.enriched_find htable)
  · rw [MemoTable.serial_find] at hserial hslots
    rw [MemoTable.occupied_find] at hslots
    have hbound := hremembers.slot_serial_le htable
    refine ⟨?_, ?_, ?_, ?_⟩
    · rw [MemoTable.labels_set htable (by simp), hremembers.labels]
    · intro new hmember slot hslot
      obtain ⟨place, hnew⟩ := List.mem_iff_getElem?.mp hmember
      rcases MemoTable.getElem?_set_cases hnew with ⟨rfl, rfl⟩ | ⟨_, hsame⟩
      · rw [hserial]
        rcases hslots slot hslot with rfl | hold
        · exact Nat.le_refl _
        · exact Nat.le_succ_of_le (hbound slot hold)
      · exact hremembers.slot_serial_le hsame slot hslot
    · intro place new hnew slot hslot hresult user huser
      rcases MemoTable.getElem?_set_cases hnew with ⟨rfl, rfl⟩ | ⟨_, hsame⟩
      · rcases hslots slot hslot with rfl | hold
        · exact hpending user huser
        · exact hremembers.pending place table htable slot hold hresult user huser
      · exact hremembers.pending place new hsame slot hslot hresult user huser
    · intro place new hnew slot hslot part hresult
      rcases MemoTable.getElem?_set_cases hnew with ⟨rfl, rfl⟩ | ⟨_, hsame⟩
      · rcases hslots slot hslot with rfl | hold
        · simp at hresult
        · exact hremembers.right place table htable slot hold part hresult
      · exact hremembers.right place new hsame slot hslot part hresult

/-- A reservation for the only user of a table. -/
theorem Remembers.set_save_of_user (hexclusive : grammar.tablesInUse.Nodup)
    {user : Expression} (huser : (index, user) ∈ grammar.users)
    (hremembers : grammar.Remembers source semantics steps tables)
    (htable : tables[index]? = some table)
    (hpending : grammar.attempt source semantics steps user position = .error .exhausted) :
    grammar.Remembers source semantics steps
      (tables.set index ((table.find position).2.save position).2) := by
  apply hremembers.set_save htable
  intro other hother
  rw [user_unique hexclusive hother huser]
  exact hpending

/-- A reservation that is filled with a right part once the body is done. -/
theorem Remembers.enriched_filled {part : Phrase Value} {later : List (MemoTable Value)}
    (hremembers : grammar.Remembers source semantics steps tables)
    (htable : tables[index]? = some table)
    (hlater : grammar.Enriched source semantics
      (tables.set index ((table.find position).2.save position).2) later)
    (hright : grammar.RightPart source semantics index position part) :
    grammar.Enriched source semantics tables
      (Machine.filled
        (((table.find position).2.save position).1.map fun reservation =>
          ⟨index, reservation.serial⟩) part later) := by
  rcases MemoTable.save_cases (table.find position).2 position with
    ⟨_, hsave⟩ | ⟨evicted, hreservation, hserial, hslots⟩
  · rw [hsave] at hlater ⊢
    exact (hremembers.enriched_find htable).trans hlater
  · rw [MemoTable.serial_find] at hserial hslots hreservation
    rw [MemoTable.occupied_find] at hslots
    have hlabels := hlater.labels
    rw [MemoTable.labels_set htable (by simp)] at hlabels
    simp only [hreservation, Option.map_some, Machine.filled]
    refine ⟨?_, ?_⟩
    · rw [← hlabels]
      exact MemoTable.labels_modify later index fun _ => MemoTable.label_fill _ _ _
    · intro place old new hold hnew
      rw [List.getElem?_modify] at hnew
      obtain ⟨grown, hgrown, hnew⟩ := Option.map_eq_some_iff.mp hnew
      by_cases hplace : index = place
      · subst hplace
        obtain rfl : table = old := Option.some.inj (htable.symm.trans hold)
        rw [if_pos rfl] at hnew
        subst hnew
        have hindex := (List.getElem?_eq_some_iff.mp htable).1
        have hgrows := hlater.grows index _ grown (List.getElem?_set_self hindex) hgrown
        exact .of_reserved hserial hslots (hremembers.slot_serial_le htable) hgrows hright
      · rw [if_neg hplace] at hnew
        obtain rfl : grown = new := hnew
        apply hlater.grows place old grown _ hgrown
        rw [List.getElem?_set_ne hplace]
        exact hold

/-! ## Consulting a table -/

section Consulting

variable {setting : Setting Value} {machine : Machine Value} {user : Expression}

/-- A result that is found does what the attempt of the table's user would do. -/
theorem consulting_realizes_of_hit {part : Phrase Value}
    (huser : (index, user) ∈ grammar.users) (huses : grammar.table? user = some index)
    (hready : grammar.Remembers setting.source setting.semantics steps machine.tables)
    (hends : grammar.attempt setting.source setting.semantics steps user
      machine.position ≠ .error .exhausted)
    (htable : machine.tables[index]? = some table)
    (hlookup : table.lookup machine.position = .hit part) (body : Run Value Bool) :
    (consulting setting user.enclosure index user.isInner body machine).Realizes
      (.remembering grammar setting.source setting.semantics steps) machine
      (grammar.attempt setting.source setting.semantics steps user machine.position) := by
  obtain ⟨slot, hslot, hstart, hresult⟩ := MemoTable.mem_of_lookup_eq_hit hlookup
  obtain ⟨enough, label, inside, hlabel, hclosed⟩ :=
    hready.right index table htable slot hslot part hresult user huser
  rw [hstart] at hclosed
  let effect : Effect Value := .ofPart user.enclosure.use part
    (user.enclosure.visits label machine.position inside part)
  have hattempt : grammar.attempt setting.source setting.semantics (enough + 1) user
      machine.position = .ok effect := by
    rw [attempt_succ_of_table grammar huses, hlabel]
    simp only [Attempt.within]
    rw [← tableBody, hclosed]
  have hagree := grammar.attempt_agree setting.source setting.semantics hends
    (by rw [hattempt]; simp)
  rw [hagree, hattempt]
  obtain ⟨found, hconsult, hfound⟩ := Machine.consult_of_hit user.isInner htable hlookup
  have hcandidate : found.candidate = some part := congrArg Core.candidate hfound
  have hposition : found.position = machine.position := congrArg Core.position hfound
  obtain ⟨after, hreuse, hafter⟩ :=
    Machine.reuse_of_candidate user.enclosure.use hcandidate
  have hlanding := Enclosure.landing_of_part? (Attempt.closed_eq_ok_iff.mp hclosed).2
  rw [hposition, hlanding] at hafter
  have hstack : (found.top, found.frames) = machine.core.stack := congrArg Core.stack hfound
  have htables : after.tables = machine.tables.set index (table.find machine.position).2 :=
    (congrArg Core.tables hafter).trans (congrArg Core.tables hfound)
  refine ⟨after, ?_, ⟨?_, ?_⟩, ?_⟩
  · simp only [consulting, test_consult, Run.andThen, hconsult, if_true, test_reuse, hreuse,
      effect, Effect.matched_ofPart]
  · rw [Effect.stop_ofPart]
    exact congrArg Core.position hafter
  · rw [hafter, hstack, Effect.applyTo_ofPart]
  · rw [htables]
    exact hready.enriched_find htable

/-- A body that is run in place of a missing result leaves the right result behind. -/
theorem consulting_realizes_of_miss (hexclusive : grammar.tablesInUse.Nodup)
    {body : Run Value Bool} (huser : (index, user) ∈ grammar.users)
    (huses : grammar.table? user = some index)
    (hbody : body.Realizes (.remembering grammar setting.source setting.semantics steps)
      (grammar.tableBody setting.source setting.semantics steps user))
    (hready : grammar.Remembers setting.source setting.semantics steps machine.tables)
    (hexhausted : grammar.attempt setting.source setting.semantics steps user
      machine.position = .error .exhausted)
    (htable : machine.tables[index]? = some table)
    (hlookup : table.lookup machine.position = .miss) :
    (consulting setting user.enclosure index user.isInner body machine).Realizes
      (.remembering grammar setting.source setting.semantics steps) machine
      (grammar.attempt setting.source setting.semantics (steps + 1) user
        machine.position) := by
  obtain ⟨opened, hconsult, hopened⟩ :=
    Machine.consult_of_miss user.isInner htable hlookup
  obtain ⟨htop, hframes⟩ := Prod.mk.inj (congrArg Core.stack hopened)
  have htables : opened.tables = machine.tables.set index
      ((table.find machine.position).2.save machine.position).2 :=
    congrArg Core.tables hopened
  let label : TableLabel := ⟨if user.isInner then "" else table.name, table.diagnosis⟩
  have hlabel : grammar.tableLabel? index user.isInner = some label := by
    rw [tableLabel?_of_labels hready.labels, htable]
    rfl
  have hsaved : grammar.Remembers setting.source setting.semantics steps opened.tables := by
    rw [htables]
    exact hready.set_save_of_user hexclusive huser htable hexhausted
  have hcloses : (closedAfter setting body (user.enclosure.closing true)
      (user.enclosure.closing false) opened).Closes _ user.enclosure label _ machine opened
        (Attempt.closed setting.source setting.semantics user.enclosure label
          (grammar.tableBody setting.source setting.semantics steps user)
          machine.position) :=
    closedAfter_closes hbody user.enclosure label (congrArg Core.position hopened) htop
      hframes hsaved
  rw [attempt_succ_of_table grammar huses, hlabel]
  simp only [consulting, test_consult, Run.andThen, hconsult]
  apply hcloses.realizes
  intro inside part tables hclosed hkept
  apply hready.enriched_filled htable (htables ▸ hkept)
  intro other hother
  rw [user_unique hexclusive hother huser]
  exact ⟨steps, label, inside, hlabel, hclosed⟩

theorem consulting_realizes_remembering (hexclusive : grammar.tablesInUse.Nodup)
    {body : Run Value Bool} (huser : (index, user) ∈ grammar.users)
    (huses : grammar.table? user = some index)
    (hbody : body.Realizes (.remembering grammar setting.source setting.semantics steps)
      (grammar.tableBody setting.source setting.semantics steps user))
    (hready : grammar.Remembers setting.source setting.semantics (steps + 1)
      machine.tables)
    (hexhausted : grammar.attempt setting.source setting.semantics steps user
      machine.position = .error .exhausted)
    (hends : grammar.attempt setting.source setting.semantics (steps + 1) user
      machine.position ≠ .error .exhausted) :
    (consulting setting user.enclosure index user.isInner body machine).Realizes
      (.remembering grammar setting.source setting.semantics (steps + 1)) machine
      (grammar.attempt setting.source setting.semantics (steps + 1) user
        machine.position) := by
  cases htable : machine.tables[index]? with
  | none =>
      have hlabel : grammar.tableLabel? index user.isInner = none := by
        rw [tableLabel?_of_labels hready.labels, htable]
        rfl
      rw [attempt_succ_of_table grammar huses, hlabel]
      simp only [consulting, test_consult, Run.andThen, Machine.consult_of_no_table _ htable]
      exact ⟨machine, rfl, rfl⟩
  | some table =>
      cases hlookup : table.lookup machine.position with
      | hit part => exact consulting_realizes_of_hit huser huses hready hends htable hlookup body
      | miss =>
          exact consulting_realizes_of_miss hexclusive huser huses hbody
            (hready.mono (Nat.le_succ steps)) hexhausted htable hlookup
      | pending =>
          obtain ⟨slot, hslot, hstart, hresult⟩ :=
            MemoTable.mem_of_lookup_eq_pending hlookup
          have hopen := hready.pending index table htable slot hslot hresult user huser
          rw [hstart] at hopen
          exact absurd hopen hends

end Consulting

/-- With memory, an evaluation follows every attempt that ends. -/
theorem evaluate_realizes_remembering (hexclusive : grammar.tablesInUse.Nodup)
    (setting : Setting Value) {more : Nat} (hsteps : steps ≤ more)
    {expression : Expression} (hexpression : expression.users ⊆ grammar.users) :
    (grammar.evaluate setting more expression).Realizes
      (.remembering grammar setting.source setting.semantics steps)
      (grammar.attempt setting.source setting.semantics steps expression) := by
  -- Strong induction: a body under a table is realized for the least steps it needs.
  induction steps using Nat.strongRecOn generalizing more expression with
  | ind steps ih =>
      cases steps with
      | zero =>
          intro machine _ hlockstep
          exact hlockstep.elim
      | succ steps =>
          obtain ⟨more, rfl⟩ : ∃ fewer, more = fewer + 1 := ⟨more - 1, by omega⟩
          have hless : steps ≤ more := Nat.le_of_succ_le_succ hsteps
          have hparts : ∀ least ≤ steps, ∀ part ∈ grammar.parts expression,
              (grammar.evaluate setting more part).Realizes
                (.remembering grammar setting.source setting.semantics least)
                (grammar.attempt setting.source setting.semantics least part) := by
            intro least hleast part hpart
            exact ih least (Nat.lt_succ_of_le hleast) (Nat.le_trans hleast hless)
              (users_parts_subset hexpression hpart)
          cases huses : grammar.table? expression with
          | none =>
              apply evaluate_succ_realizes grammar setting huses
              intro part hpart machine hready
              exact hparts steps (Nat.le_refl _) part hpart machine
                (hready.mono (Nat.le_succ steps))
          | some index =>
              apply evaluate_succ_realizes_of_consulting grammar setting huses
              intro machine hready
              by_cases hends : grammar.attempt setting.source setting.semantics (steps + 1)
                  expression machine.position = .error .exhausted
              · rw [hends]
                exact False.elim
              · obtain ⟨least, hleast, hexhausted, hsame⟩ :=
                  grammar.exists_least_attempt setting.source setting.semantics hends
                rw [← hsame] at hends ⊢
                exact consulting_realizes_remembering hexclusive
                  (mem_users_of_table hexpression huses) huses
                  (.all _ (hparts least (Nat.le_of_lt_succ hleast)))
                  (hready.mono hleast) hexhausted hends

/-! ## Whole parses -/

/-- Tables that hold nothing are in order. -/
theorem remembers_of_occupied_eq_nil
    (hlabels : tables.map MemoTable.label = grammar.tables)
    (hoccupied : ∀ table ∈ tables, table.occupied = []) :
    grammar.Remembers source semantics steps tables := by
  have hno : ∀ table ∈ tables, ∀ slot, slot ∉ table.occupied := by
    intro table htable slot
    rw [hoccupied table htable]
    exact List.not_mem_nil
  refine ⟨hlabels, ?_, ?_, ?_⟩
  · intro table htable slot hslot
    exact absurd hslot (hno table htable slot)
  · intro index table htable slot hslot
    exact absurd hslot (hno table (List.mem_of_getElem? htable) slot)
  · intro index table htable slot hslot
    exact absurd hslot (hno table (List.mem_of_getElem? htable) slot)

theorem remembers_start {setting : Setting Value} {machine : Machine Value}
    (hmachine : machine.HasTablesOf grammar) :
    grammar.Remembers source semantics steps (machine.start setting).tables :=
  remembers_of_occupied_eq_nil ((Machine.labels_start setting machine).trans hmachine)
    fun _ htable => Machine.occupied_start htable

theorem parse_answers_remembering (hexclusive : grammar.tablesInUse.Nodup)
    (setting : Setting Value) {machine : Machine Value}
    (hmachine : machine.HasTablesOf grammar) {more : Nat} (hsteps : steps ≤ more) :
    (grammar.parse setting more machine).Answers setting False
      (grammar.rootAttempt setting.source setting.semantics steps 0) := by
  have hroot : (grammar.root setting more).Realizes
      (.remembering grammar setting.source setting.semantics steps)
      (grammar.rootAttempt setting.source setting.semantics steps) := by
    apply root_realizes
    intro name
    exact evaluate_realizes_remembering hexclusive setting hsteps (List.nil_subset _)
  exact Machine.parse_answers hroot machine (remembers_start hmachine)

end Grammar

/-- Both parses end, and in the same way: with the same answer or in the same fault, and
with the cursor at the same place. -/
def Outcome.AgreesWith :
    Outcome Value (Except ParseError (Phrase Value)) →
      Outcome Value (Except ParseError (Phrase Value)) → Prop
  | .finished answer after, .finished other otherAfter =>
      answer = other ∧ after.position = otherAfter.position
  | .faulted fault after, .faulted other otherAfter =>
      fault = other ∧ after.position = otherAfter.position
  | _, _ => False

/-- Two parses that follow the same root attempt agree, if it ends. -/
theorem Outcome.AgreesWith.of_answers
    {outcome other : Outcome Value (Except ParseError (Phrase Value))}
    {setting otherSetting : Setting Value} {lockstep otherLockstep : Prop}
    {attempted : Except Halt (Effect Value)} (hends : attempted ≠ .error .exhausted)
    (hsource : setting.source = otherSetting.source)
    (houtcome : outcome.Answers setting lockstep attempted)
    (hother : other.Answers otherSetting otherLockstep attempted) :
    outcome.AgreesWith other := by
  cases attempted with
  | error halt =>
      cases halt with
      | exhausted => exact absurd rfl hends
      | faulted fault position =>
          obtain ⟨after, rfl, hafter⟩ := houtcome
          obtain ⟨otherAfter, rfl, hotherAfter⟩ := hother
          exact ⟨rfl, hafter.trans hotherAfter.symm⟩
  | ok effect =>
      obtain ⟨after, rfl, hafter⟩ := houtcome
      obtain ⟨otherAfter, rfl, hotherAfter⟩ := hother
      have hsame : Machine.answer? setting effect.matched
          (effect.applyTo (.opened "" "" 0)) effect.stop =
            Machine.answer? otherSetting effect.matched
              (effect.applyTo (.opened "" "" 0)) effect.stop := by
        simp only [Machine.answer?, Machine.report?, hsource]
      rw [hsame]
      have hplace := hafter.trans hotherAfter.symm
      cases Machine.answer? otherSetting effect.matched
          (effect.applyTo (.opened "" "" 0)) effect.stop with
      | some answer => exact ⟨rfl, hplace⟩
      | none => exact ⟨rfl, hplace⟩

/-- If a parse without memory ends, then every parse of the same source with memory ends
too, and the two agree. -/
theorem Grammar.parse_agreesWith_unmemoized (grammar : Grammar)
    (hexclusive : grammar.tablesInUse.Nodup) (source : Source)
    (semantics : Semantics Value) (capacity : MemoCapacity)
    {plain memoizing : Machine Value} (hplain : plain.HasTablesOf grammar)
    (hmemoizing : memoizing.HasTablesOf grammar) {steps more : Nat} (hsteps : steps ≤ more)
    (hends : grammar.parse ⟨source, semantics, .none⟩ steps plain ≠ .exhausted) :
    (grammar.parse ⟨source, semantics, capacity⟩ more memoizing).AgreesWith
      (grammar.parse ⟨source, semantics, .none⟩ steps plain) := by
  have hanswers := parse_answers_unmemoized ⟨source, semantics, .none⟩ hplain
    rfl steps
  have hmemory := parse_answers_remembering hexclusive ⟨source, semantics, capacity⟩
    hmemoizing hsteps
  apply Outcome.AgreesWith.of_answers _ rfl hmemory hanswers
  intro hexhausted
  rw [hexhausted] at hanswers
  exact hends (hanswers trivial)

/-- A single slot is enough for a sum whose terms are tried twice. -/
theorem Grammar.parse_agreesWith_unmemoized_sums :
    let plain : Setting Nat := ⟨.ofText "x+x", .empty, .none⟩
    let memoizing : Setting Nat := ⟨.ofText "x+x", .empty, ⟨1, by decide⟩⟩
    Grammar.sums.tablesInUse.Nodup ∧
      Grammar.sums.parse plain 20 (Grammar.sums.machine plain) ≠ .exhausted ∧
        (Grammar.sums.parse memoizing 20 (Grammar.sums.machine memoizing)).AgreesWith
          (Grammar.sums.parse plain 20 (Grammar.sums.machine plain)) := by
  intro plain memoizing
  have hexclusive : Grammar.sums.tablesInUse.Nodup := by decide
  have hends : Grammar.sums.parse plain 20 (Grammar.sums.machine plain) ≠ .exhausted := by
    decide +kernel
  refine ⟨hexclusive, hends, ?_⟩
  exact parse_agreesWith_unmemoized Grammar.sums hexclusive (.ofText "x+x") .empty
    ⟨1, by decide⟩ (machine_hasTablesOf Grammar.sums plain)
    (machine_hasTablesOf Grammar.sums memoizing) (Nat.le_refl 20) hends

end Packrat
