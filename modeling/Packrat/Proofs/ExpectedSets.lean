import Mathlib.Data.List.Induction
import Mathlib.Data.List.Nodup
import Packrat.Proofs.CodePoints
import Packrat.Proofs.PrimitiveSteps

/-!
# Expected sets

An expected set holds every label that it is made of where it first occurred, and falls into
the labels of what was expected and of what must not be there.  Its text has a clause for each
of the two.  The label of a terminal tells on which side it stands, and a negated label is the
label of the negation behind the mark.
-/

namespace Packrat

namespace ExpectedSet

variable {labels before after copied : List String} {label : String}

/-! ## First occurrences -/

/-- The labels that no equal one comes before, in order. -/
def firstOccurrences (labels : List String) : List String :=
  (labels.zipIdx.filter fun entry => entry.1 ∉ labels.take entry.2).map Prod.fst

/-- Each further label is added at the end, unless it is there already. -/
theorem labels_ofLabels_concat (labels : List String) (label : String) :
    (ofLabels (labels ++ [label])).labels =
      (ofLabels labels).labels ++ if label ∈ labels then [] else [label] := by
  rw [ofLabels, ofLabels, List.eraseDups_append]
  by_cases hlabel : label ∈ labels <;> simp [hlabel, List.removeAll, List.eraseDups_cons]

theorem firstOccurrences_concat (labels : List String) (label : String) :
    firstOccurrences (labels ++ [label]) =
      firstOccurrences labels ++ if label ∈ labels then [] else [label] := by
  have hearlier : ∀ entry ∈ labels.zipIdx,
      (labels ++ [label]).take entry.2 = labels.take entry.2 := by
    intro entry hentry
    have hindex : entry.2 < labels.length := by
      have hbound := List.snd_lt_of_mem_zipIdx hentry
      simpa using hbound
    exact List.take_append_of_le_length (Nat.le_of_lt hindex)
  have hfilter : (labels.zipIdx.filter fun entry => entry.1 ∉ (labels ++ [label]).take entry.2) =
      labels.zipIdx.filter fun entry => entry.1 ∉ labels.take entry.2 :=
    List.filter_congr fun entry hentry => by rw [hearlier entry hentry]
  rw [firstOccurrences, List.zipIdx_append, List.filter_append, List.map_append, hfilter,
    firstOccurrences]
  by_cases hlabel : label ∈ labels <;> simp [hlabel]

/-- A set keeps the first occurrence of each label. -/
theorem labels_ofLabels (labels : List String) :
    (ofLabels labels).labels = firstOccurrences labels := by
  -- Labels are taken off at the end, since a set grows only there.
  induction labels using List.reverseRecOn with
  | nil => rfl
  | append_singleton labels label ih =>
      rw [labels_ofLabels_concat, firstOccurrences_concat, ih]

theorem mem_ofLabels : label ∈ (ofLabels labels).labels ↔ label ∈ labels :=
  List.mem_eraseDups

theorem nodup_ofLabels (labels : List String) : (ofLabels labels).labels.Nodup := by
  induction labels using List.reverseRecOn with
  | nil => exact List.nodup_nil
  | append_singleton labels label ih =>
      rw [labels_ofLabels_concat]
      by_cases hlabel : label ∈ labels
      · simpa [hlabel] using ih
      · have hnew : label ∉ (ofLabels labels).labels := mt mem_ofLabels.mp hlabel
        rw [if_neg hlabel, ← List.concat_eq_append]
        exact ih.concat hnew

theorem ofLabels_perm {permuted : List String} (hperm : labels.Perm permuted) :
    (ofLabels labels).labels.Perm (ofLabels permuted).labels := by
  apply (List.perm_ext_iff_of_nodup (nodup_ofLabels _) (nodup_ofLabels _)).mpr
  intro label
  rw [mem_ofLabels, mem_ofLabels, hperm.mem_iff]

/-- More copies of labels, each of them behind an occurrence that was there before. -/
inductive AddsCopies (labels : List String) : List String → Prop
  | same : AddsCopies labels labels
  | copy {before after : List String} {label : String}
      (hcopies : AddsCopies labels (before ++ after)) (hlabel : label ∈ before) :
      AddsCopies labels (before ++ label :: after)

theorem ofLabels_copy (hlabel : label ∈ before) (after : List String) :
    ofLabels (before ++ label :: after) = ofLabels (before ++ after) := by
  have hremoved : (label :: after).removeAll before = after.removeAll before := by
    simp [List.removeAll, hlabel]
  rw [ofLabels, ofLabels, List.eraseDups_append, List.eraseDups_append, hremoved]

theorem AddsCopies.ofLabels_eq (hcopies : AddsCopies labels copied) :
    ofLabels copied = ofLabels labels := by
  induction hcopies with
  | same => rfl
  | copy _ hlabel ih => rw [ofLabels_copy hlabel, ih]

/-! ## Two sides -/

theorem negated?_eq_some_iff {stripped : String} :
    negated? label = some stripped ↔ label = Terminal.negationMark ++ stripped := by
  rw [negated?]
  by_cases hmarked : Terminal.negationMark.toList <+: label.toList
  · obtain ⟨rest, hrest⟩ := hmarked
    have hlabel : label = Terminal.negationMark ++ String.ofList rest := by
      rw [← String.toList_inj, String.toList_append, String.toList_ofList, hrest]
    have hdropped : label.toList.drop Terminal.negationMark.length = rest := by
      rw [← hrest]
      exact List.drop_left
    rw [if_pos (List.isPrefixOf_iff_prefix.mpr ⟨rest, hrest⟩), hdropped, hlabel, Option.some.injEq,
      String.append_right_inj]
  · rw [if_neg (mt List.isPrefixOf_iff_prefix.mp hmarked)]
    refine iff_of_false nofun ?_
    rintro rfl
    exact hmarked ⟨stripped.toList, (String.toList_append ..).symm⟩

theorem negated?_mark (stripped : String) :
    negated? (Terminal.negationMark ++ stripped) = some stripped :=
  negated?_eq_some_iff.mpr rfl

/-- What must not be there, with the mark that its labels bear in the set. -/
def marked (set : ExpectedSet) : List String :=
  set.notExpected.map (Terminal.negationMark ++ ·)

theorem marked_eq (set : ExpectedSet) :
    set.marked = set.labels.filter fun label => (negated? label).isSome := by
  rw [marked, notExpected, List.map_filterMap, ← List.filterMap_eq_filter]
  congr 1
  funext label
  cases hnegated : negated? label with
  | none => simp [Option.guard, hnegated]
  | some stripped => simp [Option.guard, hnegated, (negated?_eq_some_iff.mp hnegated).symm]

/-- What was expected and what must not be there make up the set, each side in the order of the
set, and no label is on both sides. -/
structure IsPartitioned (set : ExpectedSet) : Prop where
  expected_sublist : set.expected.Sublist set.labels
  marked_sublist : set.marked.Sublist set.labels
  perm : (set.expected ++ set.marked).Perm set.labels
  mem_expected_iff : ∀ label ∈ set.labels, label ∈ set.expected ↔ label ∉ set.marked

theorem isPartitioned (set : ExpectedSet) : set.IsPartitioned where
  expected_sublist := List.filter_sublist
  marked_sublist := by
    rw [marked_eq]
    exact List.filter_sublist
  perm := by
    have hsides := List.filter_append_perm (fun label => (negated? label).isNone) set.labels
    simpa only [marked_eq, expected, Option.not_isNone] using hsides
  mem_expected_iff label hlabel := by
    simp [marked_eq, expected, hlabel]

/-! ## Clauses -/

/-- The clause for labels, if there are any. -/
def clause (opening : String) (labels : List String) : List String :=
  if labels = [] then [] else [opening ++ alternatives labels]

theorem text_eq_clauses (set : ExpectedSet) (hset : set.labels ≠ []) :
    set.text = String.intercalate "; "
      (clause "expected " set.expected ++ clause "not expected " set.notExpected) := by
  have hjoint : "; not expected " = "; " ++ "not expected " := by decide
  cases hexpected : set.expected with
  | nil =>
      cases hnotExpected : set.notExpected with
      | nil =>
          have hperm := set.isPartitioned.perm
          rw [marked, hexpected, hnotExpected] at hperm
          exact absurd hperm.symm.eq_nil hset
      | cons _ _ => simp [text, clause, hexpected, hnotExpected]
  | cons _ _ =>
      cases hnotExpected : set.notExpected with
      | nil => simp [text, clause, hexpected, hnotExpected]
      | cons _ _ =>
          simp only [text, clause, hexpected, hnotExpected, reduceCtorEq, if_false,
            List.singleton_append, String.intercalate_cons_cons, String.intercalate_singleton,
            hjoint, String.append_assoc]

end ExpectedSet

/-! ## Labels of terminals -/

namespace Terminal

/-- Whether the label of the terminal bears the mark. -/
def isNegated : Terminal → Bool
  | .otherCharacter _ | .otherText _ | .noneOf _ | .outside _ _ => true
  | .character _ | .text _ | .oneOf _ | .between _ _ | .anyCharacter | .endOfText => false

theorem label_of_isNegated {terminal : Terminal} (hnegated : terminal.isNegated) :
    terminal.label = negationMark ++ terminal.negate.label := by
  cases terminal with
  | otherCharacter _ | otherText _ | noneOf _ | outside _ _ =>
      simp only [label, negate, String.append_assoc]
  | _ => cases hnegated

/-- Whatever characters a label shows, it begins with a quote, a bracket or a fixed word. -/
theorem not_mark_prefix_label {terminal : Terminal} (hplain : terminal.isNegated = false) :
    ¬ negationMark.toList <+: terminal.label.toList := by
  cases terminal with
  | otherCharacter _ | otherText _ | noneOf _ | outside _ _ => cases hplain
  | anyCharacter | endOfText => decide
  | _ => simp [label, negationMark]

theorem negated?_label (terminal : Terminal) :
    ExpectedSet.negated? terminal.label =
      if terminal.isNegated then some terminal.negate.label else none := by
  cases hnegated : terminal.isNegated with
  | true => simp [label_of_isNegated hnegated, ExpectedSet.negated?_mark]
  | false =>
      rw [ExpectedSet.negated?, if_neg (mt List.isPrefixOf_iff_prefix.mp
        (not_mark_prefix_label hnegated))]
      rfl

end Terminal

/-! ## Terminals that must not be there -/

theorem ExpectedSet.mem_notExpected_iff {set : ExpectedSet} {stripped : String} :
    stripped ∈ set.notExpected ↔ Terminal.negationMark ++ stripped ∈ set.labels := by
  simp [notExpected, negated?_eq_some_iff]

/-- A label that fails at the cursor is noted behind those that failed there before, unless
something failed further on. -/
theorem Failure.record_of_reach_le {failure : Failure} {cursor : Nat}
    (hreach : failure.reach ≤ cursor + 1) (label : String) :
    ∃ earlier, failure.record label cursor = ⟨some cursor, earlier ++ [label]⟩ := by
  rw [record, if_neg (Nat.not_lt.mpr hreach)]
  by_cases hbehind : failure.reach < cursor + 1
  · rw [if_pos hbehind]
    exact ⟨[], rfl⟩
  · have hposition : failure.position = some cursor := by
      cases hposition : failure.position with
      | none => simp [reach, hposition] at hbehind
      | some position =>
          simp only [reach, hposition] at hreach hbehind
          exact congrArg some (by omega)
    rw [if_neg hbehind, hposition]
    exact ⟨failure.labels, rfl⟩

namespace Machine

variable {Value : Type} {setting : Setting Value} {machine after : Machine Value}
variable {terminal : Terminal}

theorem failure_fail (terminal : Terminal) (machine : Machine Value) :
    (machine.fail terminal).current.failure =
      machine.current.failure.record terminal.label machine.position := by
  rw [fail]
  split
  · next hbehind => rw [Failure.record, if_pos hbehind]
  · cases hframes : machine.frames <;> simp [current, changeCurrent, noteEvent, note, hframes]

theorem aheadNot_of_match {length : Nat}
    (hmatch : terminal.matchLength? setting.source machine.position = some length) :
    aheadNot setting terminal machine = .finished false (machine.fail terminal.negate) := by
  simp only [aheadNot, hmatch]

theorem eq_fail_of_aheadNot
    (hperform : perform setting (.aheadNot terminal) machine = .finished (some false) after) :
    after = machine.fail terminal.negate := by
  obtain ⟨answer, hanswer, hfalse⟩ := Run.finished_of_map hperform
  obtain rfl : answer = false := Option.some.inj hfalse
  cases hmatch : terminal.matchLength? setting.source machine.position with
  | none =>
      simp only [aheadNot, hmatch] at hanswer
      cases hanswer
  | some length =>
      rw [aheadNot_of_match hmatch] at hanswer
      exact (Outcome.finished.inj hanswer).2.symm

theorem failure_of_aheadNot
    (hperform : perform setting (.aheadNot terminal) machine = .finished (some false) after) :
    after.current.failure =
      machine.current.failure.record terminal.negate.label machine.position := by
  rw [eq_fail_of_aheadNot hperform, failure_fail]

/-- A terminal that must not be there, and is, stands among what was not expected, and at the
place where it was found. -/
theorem notExpected_of_aheadNot (hnegated : terminal.negate.isNegated)
    (hperform : perform setting (.aheadNot terminal) machine = .finished (some false) after)
    (hreach : machine.current.failure.reach ≤ machine.position + 1) :
    after.current.failure.position = some machine.position ∧
      terminal.label ∈ (ExpectedSet.ofLabels after.current.failure.labels).notExpected := by
  obtain ⟨earlier, hrecord⟩ := Failure.record_of_reach_le hreach terminal.negate.label
  have hlabel : terminal.negate.label = Terminal.negationMark ++ terminal.label := by
    rw [Terminal.label_of_isNegated hnegated, Terminal.negate_negate]
  rw [failure_of_aheadNot hperform, hrecord, ExpectedSet.mem_notExpected_iff,
    ExpectedSet.mem_ofLabels, ← hlabel]
  exact ⟨rfl, List.mem_append_right _ (List.mem_singleton_self _)⟩

end Machine

/-! ## Labels and sets -/

namespace ExpectedSet

variable {labels : List String} {terminal : Terminal}

/-- What a list of labels comes to: the first occurrence of each, on two sides that the text
shows one after the other. -/
structure IsFaithful (labels : List String) : Prop where
  labels_eq : (ofLabels labels).labels = firstOccurrences labels
  copies : ∀ copied, AddsCopies labels copied →
    ofLabels copied = ofLabels labels ∧ (ofLabels copied).text = (ofLabels labels).text
  partitioned : (ofLabels labels).IsPartitioned
  text_eq : labels ≠ [] → (ofLabels labels).text = String.intercalate "; "
    (clause "expected " (ofLabels labels).expected ++
      clause "not expected " (ofLabels labels).notExpected)

theorem isFaithful (labels : List String) : IsFaithful labels where
  labels_eq := labels_ofLabels labels
  copies _ hcopies := ⟨hcopies.ofLabels_eq, congrArg text hcopies.ofLabels_eq⟩
  partitioned := isPartitioned _
  text_eq hlabels := by
    obtain ⟨label, hlabel⟩ := List.exists_mem_of_ne_nil labels hlabels
    exact text_eq_clauses _ (List.ne_nil_of_mem (mem_ofLabels.mpr hlabel))

theorem mem_expected_label_iff (hlabel : terminal.label ∈ labels) :
    terminal.label ∈ (ofLabels labels).expected ↔ terminal.isNegated = false := by
  rw [expected, List.mem_filter, terminal.negated?_label]
  cases terminal.isNegated <;> simp [mem_ofLabels, hlabel]

theorem negate_label_mem_notExpected (hnegated : terminal.isNegated)
    (hlabel : terminal.label ∈ labels) :
    terminal.negate.label ∈ (ofLabels labels).notExpected := by
  rw [mem_notExpected_iff, mem_ofLabels, ← Terminal.label_of_isNegated hnegated]
  exact hlabel

/-- Any labels make a set without repetitions on two sides.  The label of a terminal stands on
the side that its kind says, a negated one as the label of its negation, and so a terminal that
was found where it must not be is named under what was not expected. -/
theorem expected_sets_partition_labels :
    (∀ labels, IsFaithful labels) ∧
    (∀ (terminal : Terminal) labels, terminal.label ∈ labels →
      (terminal.label ∈ (ofLabels labels).expected ↔ terminal.isNegated = false) ∧
      (terminal.isNegated = true → negated? terminal.label = some terminal.negate.label ∧
        terminal.negate.label ∈ (ofLabels labels).notExpected)) ∧
    ∀ {Value : Type} (setting : Setting Value) (machine after : Machine Value)
      (terminal : Terminal), terminal.negate.isNegated = true →
      Machine.perform setting (.aheadNot terminal) machine = .finished (some false) after →
        after.current.failure =
          machine.current.failure.record terminal.negate.label machine.position ∧
        (machine.current.failure.reach ≤ machine.position + 1 →
          terminal.label ∈ (ofLabels after.current.failure.labels).notExpected ∧
          (machine.position ≤ setting.source.length →
            ∃ error, after.current.error? setting.source = some error ∧
              error.offset = machine.position ∧
                error.expected = ofLabels after.current.failure.labels)) := by
  refine ⟨isFaithful, fun terminal labels hlabel => ⟨mem_expected_label_iff hlabel, ?_⟩, ?_⟩
  · intro hnegated
    refine ⟨?_, negate_label_mem_notExpected hnegated hlabel⟩
    rw [terminal.negated?_label, if_pos hnegated]
  · intro Value setting machine after terminal hnegated hperform
    refine ⟨Machine.failure_of_aheadNot hperform, fun hreach => ?_⟩
    obtain ⟨hposition, hlabel⟩ := Machine.notExpected_of_aheadNot hnegated hperform hreach
    exact ⟨hlabel, fun hinside => ⟨_, Source.ofFailure?_eq hposition hinside, rfl, rfl⟩⟩

/-- A word that must not be there, after a label that is noted twice. -/
theorem expected_sets_partition_labels_word :
    let setting : Setting Nat := ⟨.ofText "if", .empty, ⟨0, by decide⟩⟩
    (ofLabels ["not 'b'", "'a'", "not 'b'"]).text = (ofLabels ["not 'b'", "'a'"]).text ∧
    ∃ after error, Machine.perform setting (.aheadNot (.text "if")) .initial =
        .finished (some false) after ∧
      after.current.error? setting.source = some error ∧ error.offset = 0 ∧
        (Terminal.text "if").label ∈ error.expected.notExpected := by
  intro setting
  obtain ⟨hfaithful, -, hnegated⟩ := expected_sets_partition_labels
  have hcopies : AddsCopies ["not 'b'", "'a'"] (["not 'b'", "'a'"] ++ "not 'b'" :: []) :=
    .copy .same (by decide)
  have hmatch : (Terminal.text "if").matchLength? setting.source 0 = some 2 := by
    decide +kernel
  have hfails : Machine.perform setting (.aheadNot (.text "if")) .initial =
      .finished (some false) (Machine.initial.fail (.otherText "if")) :=
    Run.map_of_finished (Machine.aheadNot_of_match hmatch) some
  obtain ⟨-, hreported⟩ := hnegated setting _ _ (.text "if") rfl hfails
  obtain ⟨hlabel, hinside⟩ := hreported (by decide)
  obtain ⟨error, herror, hoffset, hexpected⟩ := hinside (Nat.zero_le _)
  refine ⟨((hfaithful _).copies _ hcopies).2, _, error, hfails, herror, hoffset, ?_⟩
  rw [hexpected]
  exact hlabel

end ExpectedSet

end Packrat
