import Packrat.Proofs.ErrorReport
import Packrat.Proofs.Gists
import Packrat.Proofs.MemoTransparency
import Packrat.Proofs.Positions

/-!
# From the gist of the root to the parse

If an attempt of the root comes to a gist, then every parse that is allowed enough steps ends as
the gist tells: on any machine with the tables of the grammar, and with memory of any capacity.
-/

namespace Packrat

variable {Value : Type}

namespace Grammar

variable {grammar : Grammar} {source : Source} {semantics : Semantics Value}
variable {root : Rule} {rest : List Rule}

/-- With enough steps, a parse ends with such an answer, whatever its capacity and on any machine
with the tables of the grammar. -/
def ParsesTo (grammar : Grammar) (source : Source) (semantics : Semantics Value)
    (answer : Except ParseError (Phrase Value) → Prop) : Prop :=
  ∃ enough, ∀ steps, enough ≤ steps → ∀ (capacity : MemoCapacity) (machine : Machine Value),
    machine.HasTablesOf grammar → ∃ result after,
      grammar.parse ⟨source, semantics, capacity⟩ steps machine = .finished result after ∧
        answer result

/-- The answer of a parse is what the attempt of the root leaves on the top phrase. -/
theorem parsesTo_of_effect (hexclusive : grammar.tablesInUse.Nodup)
    (hrules : grammar.rules = root :: rest) {steps : Nat} {effect : Effect Value}
    {result : Except ParseError (Phrase Value)}
    (heffect : grammar.attempt source semantics steps (.rule root.name) 0 = .ok effect)
    (hresult : ∀ capacity, Machine.answer? ⟨source, semantics, capacity⟩ effect.matched
      (effect.applyTo (.opened "" "" 0)) effect.stop = some result) :
    grammar.ParsesTo source semantics (· = result) := by
  refine ⟨steps, fun more hsteps capacity machine hmachine => ?_⟩
  have hroot : grammar.rootAttempt source semantics steps 0 = .ok effect := by
    rw [rootAttempt, hrules]
    exact heffect
  have hanswers := parse_answers_remembering hexclusive ⟨source, semantics, capacity⟩ hmachine
    hsteps
  rw [hroot] at hanswers
  obtain ⟨after, houtcome, _⟩ := hanswers
  rw [hresult capacity] at houtcome
  exact ⟨result, after, houtcome, rfl⟩

theorem ParsesTo.imp {answer other : Except ParseError (Phrase Value) → Prop}
    (hparses : grammar.ParsesTo source semantics answer)
    (himplies : ∀ result, answer result → other result) :
    grammar.ParsesTo source semantics other := by
  obtain ⟨enough, hparses⟩ := hparses
  refine ⟨enough, fun steps hsteps capacity machine hmachine => ?_⟩
  obtain ⟨result, after, hparse, hanswer⟩ := hparses steps hsteps capacity machine hmachine
  exact ⟨result, after, hparse, himplies result hanswer⟩

/-- A root that matches with one phrase is answered by that phrase. -/
theorem ComesTo.parsesTo_phrase {phrase : Phrase Value} {stop reach : Nat}
    (hexclusive : grammar.tablesInUse.Nodup) (hrules : grammar.rules = root :: rest)
    (hroot : grammar.ComesTo source semantics (.rule root.name) 0
      ⟨true, stop, [phrase], reach⟩) :
    grammar.ParsesTo source semantics (· = .ok phrase) := by
  obtain ⟨steps, effect, heffect, hgist⟩ := hroot
  obtain ⟨hmatched, _, hparts, _⟩ := Gist.mk.inj hgist
  apply parsesTo_of_effect hexclusive hrules heffect
  intro capacity
  have hchildren : (effect.applyTo (.opened "" "" 0)).children = [phrase] := hparts
  simp only [Machine.answer?, hmatched, if_true, Machine.rootPhrase, hchildren]

/-- A root that fails is answered by an error where its failures reach to, which names what was
expected there. -/
theorem ComesTo.parsesTo_error {parts : List (Phrase Value)} {stop offset : Nat}
    (hexclusive : grammar.tablesInUse.Nodup) (hgrammar : grammar.hasNoEmptyChoice = true)
    (hrules : grammar.rules = root :: rest)
    (hroot : grammar.ComesTo source semantics (.rule root.name) 0
      ⟨false, stop, parts, offset + 1⟩) (hoffset : offset ≤ source.length) :
    grammar.ParsesTo source semantics fun result => ∃ error, result = .error error ∧
      error.offset = offset ∧ error.expected.isEmpty = false := by
  obtain ⟨steps, effect, heffect, hgist⟩ := hroot
  obtain ⟨hfailed, _, _, hreach⟩ := Gist.mk.inj hgist
  let failures := Visit.failures effect.visits
  let labels := Failure.labelsAt failures offset
  have hexplained : effect.IsExplained 0 := attempt_isExplained hgrammar steps rfl 0 effect heffect
  have hrecord : (effect.applyTo (.opened "" "" 0)).failure = ⟨some offset, labels⟩ :=
    (hexplained.mergeAll_eq_furthest hfailed).1.trans (Failure.furthest_of_reachOf hreach)
  let error := source.reported offset labels
  have hanswered : grammar.ParsesTo source semantics (· = .error error) := by
    apply parsesTo_of_effect hexclusive hrules heffect
    intro capacity
    simp only [Machine.answer?, hfailed, Bool.false_eq_true, if_false, Machine.report?, hrecord,
      Phrase.error?, ParseError.ofFailure?, Option.bind_some, Source.at?_eq hoffset,
      Option.map_some]
    rfl
  apply hanswered.imp
  rintro _ rfl
  refine ⟨error, rfl, rfl, ?_⟩
  obtain ⟨label, hlabel⟩ := Failure.exists_mem_of_reachOf hreach
  have hmember : label ∈ labels :=
    List.mem_map.mpr ⟨_, List.mem_filter.mpr ⟨hlabel, decide_eq_true rfl⟩, rfl⟩
  have hexpected : label ∈ error.expected.labels := List.mem_eraseDups.mpr hmember
  rw [ExpectedSet.isEmpty, List.isEmpty_eq_false_iff]
  exact List.ne_nil_of_mem hexpected

end Grammar

end Packrat
