import Packrat.Proofs.Procedure

/-!
# Evaluation without memory

Where no table has a slot, consulting a table is opening a phrase, and evaluation goes
along with the attempt step by step.  So an evaluation ends exactly if the attempt
does, and in the same way.
-/

namespace Packrat

variable {Value : Type}

/-- The tables are those of the grammar, and none has a slot. -/
def Regime.unmemoized (grammar : Grammar) : Regime Value where
  Ready tables :=
    tables.map MemoTable.label = grammar.tables ∧ ∀ table ∈ tables, table.slots = []
  Kept before after := after = before
  lockstep := True
  kept_refl _ := rfl
  kept_trans hfirst hsecond := hsecond.trans hfirst
  ready_of_kept hready hkept := hkept ▸ hready

theorem MemoTable.find_of_slots_eq_nil {table : MemoTable Value} (hslots : table.slots = [])
    (position : Nat) : table.find position = (.miss, table) := by
  simp [find, hslots]

theorem MemoTable.save_of_slots_eq_nil {table : MemoTable Value} (hslots : table.slots = [])
    (position : Nat) : table.save position = (none, table) := by
  simp [save, hslots]

namespace Grammar

variable {grammar : Grammar} {machine : Machine Value} {index : Nat} {inner : Bool}

/-- The labels of the tables of a grammar, read off the tables themselves. -/
theorem tableLabel?_of_labels {tables : List (MemoTable Value)}
    (hlabels : tables.map MemoTable.label = grammar.tables) :
    grammar.tableLabel? index inner =
      tables[index]?.map fun table =>
        ⟨if inner then "" else table.name, table.diagnosis⟩ := by
  rw [tableLabel?, ← hlabels, List.getElem?_map, Option.map_map]
  rfl

theorem consult_of_slots_eq_nil {table : MemoTable Value}
    (htable : machine.tables[index]? = some table) (hslots : table.slots = []) :
    ∃ after, Machine.consult index inner machine = .finished false after ∧
      after.core =
        (machine.begin (if inner then "" else table.name) table.diagnosis none).core := by
  have hfind := MemoTable.find_of_slots_eq_nil hslots machine.position
  have hsave := MemoTable.save_of_slots_eq_nil hslots machine.position
  have hmiss : table.lookup machine.position = .miss := by
    rw [← MemoTable.find_fst, hfind]
  obtain ⟨after, hconsult, hcore⟩ := Machine.consult_of_miss inner htable hmiss
  have hsame : machine.tables.set index table = machine.tables := by
    obtain ⟨hindex, rfl⟩ := List.getElem?_eq_some_iff.mp htable
    exact List.set_getElem_self hindex
  refine ⟨after, hconsult, ?_⟩
  rw [hcore, hfind]
  simp only [hsave, hsame]
  rfl

theorem consulting_realizes_unmemoized {setting : Setting Value} {body : Run Value Bool}
    {attempt : Attempt Value} (hbody : body.Realizes (.unmemoized grammar) attempt)
    (enclosure : Enclosure) (index : Nat) (inner : Bool) :
    (consulting setting enclosure index inner body).Realizes (.unmemoized grammar)
      (.within setting.source setting.semantics enclosure
        (grammar.tableLabel? index inner) attempt) := by
  intro machine hready
  rw [tableLabel?_of_labels hready.1, consulting, test_consult]
  cases htable : machine.tables[index]? with
  | none =>
      simp only [Run.andThen, Machine.consult_of_no_table inner htable]
      exact ⟨machine, rfl, rfl⟩
  | some table =>
      have hslots := hready.2 table (List.mem_of_getElem? htable)
      obtain ⟨opened, hconsult, hcore⟩ := consult_of_slots_eq_nil htable hslots
      have htables : opened.tables = machine.tables := congrArg Core.tables hcore
      have hstack := congrArg Core.stack hcore
      obtain ⟨htop, hframes⟩ := Prod.mk.inj hstack
      have hcloses : (closedAfter setting body (enclosure.closing true)
          (enclosure.closing false) opened).Closes (.unmemoized grammar) enclosure
            ⟨if inner then "" else table.name, table.diagnosis⟩ none machine opened
            (Attempt.closed setting.source setting.semantics enclosure
              ⟨if inner then "" else table.name, table.diagnosis⟩ attempt
              machine.position) :=
        closedAfter_closes hbody enclosure _ (congrArg Core.position hcore) htop hframes
          (htables ▸ hready)
      simp only [Run.andThen, hconsult]
      exact hcloses.realizes fun _ _ _ _ hkept => hkept.trans htables

/-- Without memory, evaluation and attempt end alike on every machine. -/
theorem evaluate_realizes_unmemoized (grammar : Grammar) (setting : Setting Value)
    (steps : Nat) (expression : Expression) :
    (grammar.evaluate setting steps expression).Realizes (.unmemoized grammar)
      (grammar.attempt setting.source setting.semantics steps expression) := by
  induction steps generalizing expression with
  | zero => exact .exhausted
  | succ steps ih =>
      cases htable : grammar.table? expression with
      | none => exact evaluate_succ_realizes grammar setting htable fun part _ => ih part
      | some index =>
          rw [attempt_succ_of_table grammar htable]
          apply evaluate_succ_realizes_of_consulting grammar setting htable
          apply consulting_realizes_unmemoized
          exact .all (grammar.parts expression) fun part _ => ih part

end Grammar

end Packrat
