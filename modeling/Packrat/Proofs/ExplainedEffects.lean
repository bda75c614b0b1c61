import Packrat.Proofs.FurthestFailure
import Packrat.Proofs.Evaluation

/-!
# Effects that are explained by failures

An attempt never leaves the cursor behind where it began.  If it goes back from a
position, there is a failure at that position or further, provided that there is no
choice without alternatives, which would fail for no reason.  So no failure that is
dropped behind the cursor is missed later.
-/

namespace Packrat

variable {Value : Type}

namespace Effect

/-- The first position that is beyond the end of the match and beyond every failure. -/
def horizon (effect : Effect Value) : Nat :=
  max (if effect.matched then effect.stop + 1 else 0)
    (Failure.reachOf (Visit.failures effect.visits))

/-- What is seen of the effect lies within its horizon, and a record that kept up with
the failures before it keeps up with those of the effect. -/
structure IsExplained (effect : Effect Value) (start : Nat) : Prop where
  le_stop : start ≤ effect.stop
  start_lt : start < effect.horizon
  stop_lt : effect.stop < effect.horizon
  visits_lt : ∀ visit ∈ effect.visits, visit.position < effect.horizon
  tracks : ∀ failure earlier, Failure.Tracks failure earlier start →
    (failure.mergeAll effect.records).Tracks (earlier ++ Visit.failures effect.visits)
      effect.stop

variable {effect first second inside : Effect Value} {start stop : Nat}

/-- An effect that is seen only where it begins. -/
theorem IsExplained.of_staying (hstop : effect.stop = start)
    (hvisits : ∀ visit ∈ effect.visits, visit.position = start)
    (hhorizon : start < effect.horizon)
    (htracks : ∀ failure earlier, Failure.Tracks failure earlier start →
      (failure.mergeAll effect.records).Tracks (earlier ++ Visit.failures effect.visits)
        start) : effect.IsExplained start where
  le_stop := Nat.le_of_eq hstop.symm
  start_lt := hhorizon
  stop_lt := hstop.symm ▸ hhorizon
  visits_lt visit hvisit := (hvisits visit hvisit).symm ▸ hhorizon
  tracks failure earlier hearlier := by
    rw [hstop]
    exact htracks failure earlier hearlier

theorem horizon_of_failure (effect : Effect Value) (hfailed : effect.matched = false) :
    effect.horizon = Failure.reachOf (Visit.failures effect.visits) := by
  rw [horizon, hfailed]
  simp

theorem lt_horizon_of_match (effect : Effect Value) (hmatched : effect.matched = true) :
    effect.stop < effect.horizon := by
  rw [horizon, hmatched]
  exact Nat.lt_of_lt_of_le (Nat.lt_succ_self effect.stop) (Nat.le_max_left _ _)

theorem IsExplained.still (start : Nat) :
    (Effect.still true start : Effect Value).IsExplained start := by
  apply of_staying rfl _ (lt_horizon_of_match (.still true start) rfl)
  · intro failure earlier htracks
    simpa [Effect.still, Visit.failures] using htracks
  · intro visit hvisit
    exact absurd hvisit List.not_mem_nil

theorem IsExplained.passing (start : Nat) :
    (Effect.passing start : Effect Value).IsExplained start := by
  apply of_staying rfl _ (lt_horizon_of_match (.passing start) rfl)
  · intro failure earlier htracks
    simpa [Effect.passing, Visit.failures] using htracks
  · intro visit hvisit
    rw [List.mem_singleton.mp hvisit]
    rfl

theorem IsExplained.taking (hstop : start ≤ stop) :
    (Effect.taking start stop : Effect Value).IsExplained start where
  le_stop := hstop
  start_lt := Nat.lt_of_le_of_lt hstop (lt_horizon_of_match (.taking start stop) rfl)
  stop_lt := lt_horizon_of_match (.taking start stop) rfl
  visits_lt visit hvisit := by
    rw [List.mem_singleton.mp hvisit]
    exact lt_horizon_of_match (.taking start stop) rfl
  tracks failure earlier htracks := by
    simpa [Effect.taking, Visit.failures] using htracks.advance hstop

theorem tracks_single (label : String) (position : Nat) :
    (Failure.single label position).Tracks [(position, label)] position := by
  have hsame : Failure.single label position =
      Failure.furthest [(position, label)] := by
    simp [Failure.furthest, Failure.reachOf, Failure.labelsAt, Failure.single]
  rw [hsame]
  exact Failure.tracks_furthest _ position

theorem IsExplained.failing (label : String) (start : Nat) :
    (Effect.failing label start : Effect Value).IsExplained start := by
  have hhorizon : start < (Effect.failing label start : Effect Value).horizon :=
    Nat.lt_of_lt_of_le (Nat.lt_succ_self start) (Nat.le_max_right _ _)
  apply of_staying rfl _ hhorizon
  · intro failure earlier htracks
    exact htracks.merge (tracks_single label start)
  · intro visit hvisit
    rw [List.mem_singleton.mp hvisit]
    rfl

/-- What follows a match or a failure goes on from where the cursor is. -/
theorem IsExplained.followedBy (hfirst : first.IsExplained start)
    (hsecond : second.IsExplained first.stop) :
    (first.followedBy second).IsExplained start := by
  have hfailures : Visit.failures (first.followedBy second).visits =
      Visit.failures first.visits ++ Visit.failures second.visits :=
    Visit.failures_append first.visits second.visits
  have hhorizon : (first.followedBy second).horizon =
      max (Failure.reachOf (Visit.failures first.visits)) second.horizon := by
    rw [horizon, hfailures, Failure.reachOf_append, horizon, ← Nat.max_assoc,
      ← Nat.max_assoc, Nat.max_comm (Failure.reachOf (Visit.failures first.visits))]
    rfl
  have hsecondLe : second.horizon ≤ (first.followedBy second).horizon := by
    rw [hhorizon]
    exact Nat.le_max_right _ _
  have hfirstLe : first.horizon ≤ (first.followedBy second).horizon := by
    have hstop := hsecond.start_lt
    rw [hhorizon, horizon]
    split <;> omega
  refine ⟨?_, ?_, ?_, ?_, ?_⟩
  · exact Nat.le_trans hfirst.le_stop hsecond.le_stop
  · exact Nat.lt_of_lt_of_le hfirst.start_lt hfirstLe
  · exact Nat.lt_of_lt_of_le hsecond.stop_lt hsecondLe
  · intro visit hvisit
    rcases List.mem_append.mp hvisit with hearlier | hlater
    · exact Nat.lt_of_lt_of_le (hfirst.visits_lt visit hearlier) hfirstLe
    · exact Nat.lt_of_lt_of_le (hsecond.visits_lt visit hlater) hsecondLe
  · intro failure earlier htracks
    have hmiddle := hfirst.tracks failure earlier htracks
    have hlast := hsecond.tracks _ _ hmiddle
    rw [hfailures, ← List.append_assoc]
    simp only [Effect.followedBy, Failure.mergeAll_append]
    exact hlast

/-! ## Enclosed bodies -/

section Enclosed

variable {source : Source} {semantics : Semantics Value} {enclosure : Enclosure}
variable {label : TableLabel} {part : Phrase Value}

/-- A body that fails leaves the furthest of its failures on record. -/
theorem IsExplained.mergeAll_eq_furthest (hinside : inside.IsExplained start)
    (hfailed : inside.matched = false) :
    Failure.empty.mergeAll inside.records =
        Failure.furthest (Visit.failures inside.visits) ∧
      start < Failure.reachOf (Visit.failures inside.visits) := by
  have hstart := hinside.start_lt
  have hstop := hinside.stop_lt
  rw [horizon_of_failure inside hfailed] at hstart hstop
  have htracks := hinside.tracks .empty [] (Failure.tracks_empty start)
  exact ⟨htracks.eq_furthest hstop, hstart⟩

/-- The failures of a phrase that is no predicate are those inside it. -/
theorem failures_visits_of_use (label : TableLabel) (start : Nat) (inside : Effect Value)
    (part : Phrase Value) (huse : enclosure.use ≠ .predicate) :
    Visit.failures (enclosure.visits label start inside part) =
      Visit.failures inside.visits := by
  have hreported : (enclosure.closing inside.matched).reported label.diagnosis = none := by
    cases hmatched : inside.matched <;> cases enclosure <;>
      first | rfl | exact absurd rfl huse
  rw [Enclosure.visits, if_neg huse, hreported]
  simp [Visit.failures]

theorem horizon_ofPart (use : PhraseUse) (part : Phrase Value) (visits : List Visit) :
    (ofPart use part visits).horizon =
      max (if part.success then part.stop + 1 else 0)
        (Failure.reachOf (Visit.failures visits)) := by
  rw [horizon, matched_ofPart, stop_ofPart, visits_ofPart]

/-- Only a condition that holds hands over no record. -/
theorem records_ofPart (use : PhraseUse) (part : Phrase Value) (visits : List Visit) :
    (ofPart use part visits).records =
      if part.success = true ∧ use = .predicate then [] else [(part.failure, part.stop)] := by
  cases hsuccess : part.success <;> cases use <;> simp [ofPart, hsuccess]

theorem failure_of_part?
    (hpart : enclosure.part? source semantics label start inside = .ok part) :
    part.failure = (enclosure.closing inside.matched).failureOf
      (inside.applyTo (.opened label.name label.diagnosis start)) :=
  congrArg Phrase.failure (Closing.eq_of_settled? hpart)

/-- A rule or a sequence that matches hands over what its body has recorded. -/
theorem IsExplained.ofPart_of_match (hinside : inside.IsExplained start)
    (hmatched : inside.matched = true) (huse : enclosure.use ≠ .predicate)
    (hpart : enclosure.part? source semantics label start inside = .ok part) :
    (ofPart enclosure.use part
      (enclosure.visits label start inside part)).IsExplained start := by
  have hsuccess : part.success = true := by
    rw [Enclosure.success_of_part? hpart, hmatched]
    cases enclosure <;> first | rfl | exact absurd rfl huse
  have hstop : part.stop = inside.stop := by
    rw [Enclosure.stop_of_part? hpart, hmatched]
    cases enclosure <;> first | rfl | exact absurd rfl huse
  have hfailure : part.failure = Failure.empty.mergeAll inside.records := by
    rw [failure_of_part? hpart, hmatched]
    cases enclosure <;> first | rfl | exact absurd rfl huse
  have hfailures := failures_visits_of_use label start inside part huse
  have hhorizon : (ofPart enclosure.use part
      (enclosure.visits label start inside part)).horizon = inside.horizon := by
    rw [horizon_ofPart, hsuccess, hstop, hfailures, horizon, hmatched]
  refine ⟨?_, ?_, ?_, ?_, ?_⟩
  · rw [stop_ofPart, hstop]
    exact hinside.le_stop
  · rw [hhorizon]
    exact hinside.start_lt
  · rw [hhorizon, stop_ofPart, hstop]
    exact hinside.stop_lt
  · rw [hhorizon, visits_ofPart, Enclosure.visits, if_neg huse]
    intro visit hvisit
    simp only [List.mem_cons, List.mem_append, List.not_mem_nil, or_false] at hvisit
    rcases hvisit with rfl | hbody | rfl
    · exact hinside.start_lt
    · exact hinside.visits_lt visit hbody
    · exact hstop ▸ hinside.stop_lt
  · intro failure earlier htracks
    have hbody := hinside.tracks .empty [] (Failure.tracks_empty start)
    rw [stop_ofPart, visits_ofPart, hfailures, records_ofPart, if_neg fun h => huse h.2,
      hfailure, hstop]
    exact (htracks.advance hinside.le_stop).merge hbody

/-- A phrase that fails goes back to its start, where its record still holds the furthest
failures inside it. -/
theorem IsExplained.ofPart_of_failure (hinside : inside.IsExplained start)
    (hfailed : inside.matched = false) (huse : enclosure.use ≠ .predicate)
    (hpart : enclosure.part? source semantics label start inside = .ok part) :
    (ofPart enclosure.use part
      (enclosure.visits label start inside part)).IsExplained start := by
  obtain ⟨hfurthest, hreach⟩ := hinside.mergeAll_eq_furthest hfailed
  have hsuccess : part.success = false := by
    rw [Enclosure.success_of_part? hpart, hfailed]
    cases enclosure <;> first | rfl | exact absurd rfl huse
  have hstop : part.stop = start := by
    rw [Enclosure.stop_of_part? hpart, hfailed]
    cases enclosure <;> rfl
  have hfailure : part.failure = Failure.furthest (Visit.failures inside.visits) := by
    rw [failure_of_part? hpart, hfailed, ← hfurthest]
    cases enclosure with
    | rule =>
        -- The rule does not report itself, because something inside it has failed.
        have hinner : (inside.applyTo (.opened label.name label.diagnosis start)).failure =
            Failure.empty.mergeAll inside.records := rfl
        have hstart : (inside.applyTo (.opened label.name label.diagnosis start)).start =
            start := rfl
        simp only [Enclosure.closing, Bool.false_eq_true, if_false, Closing.failureOf,
          hinner, hstart]
        rw [if_neg]
        intro hbehind
        rw [hfurthest, Failure.reach_furthest] at hbehind
        omega
    | sequence => rfl
    | andPredicate => exact absurd rfl huse
    | notPredicate => exact absurd rfl huse
  have hfailures := failures_visits_of_use label start inside part huse
  have hhorizon : (ofPart enclosure.use part
      (enclosure.visits label start inside part)).horizon = inside.horizon := by
    have hmatched : (ofPart enclosure.use part
        (enclosure.visits label start inside part)).matched = false :=
      (matched_ofPart _ _ _).trans hsuccess
    rw [horizon_of_failure _ hmatched, horizon_of_failure _ hfailed, visits_ofPart, hfailures]
  refine ⟨?_, ?_, ?_, ?_, ?_⟩
  · apply Nat.le_of_eq
    rw [stop_ofPart, hstop]
  · rw [hhorizon]
    exact hinside.start_lt
  · rw [hhorizon, stop_ofPart, hstop]
    exact hinside.start_lt
  · rw [hhorizon, visits_ofPart, Enclosure.visits, if_neg huse]
    intro visit hvisit
    simp only [List.mem_cons, List.mem_append, List.not_mem_nil, or_false] at hvisit
    rcases hvisit with rfl | hbody | rfl
    · exact hinside.start_lt
    · exact hinside.visits_lt visit hbody
    · exact hstop ▸ hinside.start_lt
  · intro failure earlier htracks
    rw [stop_ofPart, visits_ofPart, hfailures, records_ofPart, if_neg fun h => huse h.2,
      hfailure, hstop]
    exact htracks.merge (Failure.tracks_furthest _ start)

/-- A predicate that does not hold reports itself where it stands. -/
theorem reported_of_predicate (huse : enclosure.use = .predicate)
    (hpart : enclosure.part? source semantics label start inside = .ok part)
    (hfailed : part.success = false) :
    ∃ name, (enclosure.closing inside.matched).reported label.diagnosis = some name ∧
      part.failure = .single name start := by
  rw [failure_of_part? hpart]
  rw [Enclosure.success_of_part? hpart] at hfailed
  cases enclosure with
  | rule => contradiction
  | sequence => contradiction
  | andPredicate =>
      cases hmatched : inside.matched with
      | true => rw [hmatched] at hfailed; contradiction
      | false => exact ⟨label.diagnosis, rfl, rfl⟩
  | notPredicate =>
      cases hmatched : inside.matched with
      | true => exact ⟨Terminal.negationMark ++ label.diagnosis, rfl, rfl⟩
      | false => rw [hmatched] at hfailed; contradiction

/-- Of a predicate nothing is seen but itself. -/
theorem IsExplained.ofPart_of_predicate (huse : enclosure.use = .predicate)
    (hpart : enclosure.part? source semantics label start inside = .ok part) :
    (ofPart enclosure.use part
      (enclosure.visits label start inside part)).IsExplained start := by
  have hstop : part.stop = start := by
    rw [Enclosure.stop_of_part? hpart, enclosure.consumes_closing, huse]
    simp
  have hvisits : enclosure.visits label start inside part =
      [⟨start, none⟩,
        ⟨start, (enclosure.closing inside.matched).reported label.diagnosis⟩] := by
    rw [Enclosure.visits, if_pos huse, hstop]
    rfl
  have hplaces : ∀ visit ∈ (ofPart enclosure.use part
      (enclosure.visits label start inside part)).visits, visit.position = start := by
    intro visit hvisit
    rw [visits_ofPart, hvisits] at hvisit
    simp only [List.mem_cons, List.not_mem_nil, or_false] at hvisit
    rcases hvisit with rfl | rfl <;> rfl
  have hend := (stop_ofPart enclosure.use part
    (enclosure.visits label start inside part)).trans hstop
  cases hsuccess : part.success with
  | true =>
      have hreported :
          (enclosure.closing inside.matched).reported label.diagnosis = none := by
        rw [Enclosure.success_of_part? hpart] at hsuccess
        cases hclosing : enclosure.closing inside.matched <;>
          simp_all [Closing.succeeds, Closing.reported]
      have hhorizon := lt_horizon_of_match _ ((matched_ofPart enclosure.use part
        (enclosure.visits label start inside part)).trans hsuccess)
      rw [hend] at hhorizon
      apply of_staying hend hplaces hhorizon
      intro failure earlier htracks
      rw [visits_ofPart, hvisits, hreported, records_ofPart, if_pos ⟨hsuccess, huse⟩]
      simpa [Visit.failures] using htracks
  | false =>
      obtain ⟨name, hreported, hfailure⟩ := reported_of_predicate huse hpart hsuccess
      have hfailures : Visit.failures (enclosure.visits label start inside part) =
          [(start, name)] := by
        rw [hvisits, hreported]
        rfl
      have hhorizon : start < (ofPart enclosure.use part
          (enclosure.visits label start inside part)).horizon := by
        rw [horizon_ofPart, hfailures, Failure.reachOf]
        omega
      apply of_staying hend hplaces hhorizon
      intro failure earlier htracks
      rw [visits_ofPart, hfailures, records_ofPart, hsuccess,
        if_neg fun h => Bool.false_ne_true h.1, hfailure, hstop]
      exact htracks.merge (tracks_single name start)

theorem IsExplained.ofPart (hinside : inside.IsExplained start)
    (hpart : enclosure.part? source semantics label start inside = .ok part) :
    (Effect.ofPart enclosure.use part
      (enclosure.visits label start inside part)).IsExplained start := by
  by_cases huse : enclosure.use = .predicate
  · exact .ofPart_of_predicate huse hpart
  · cases hmatched : inside.matched with
    | true => exact hinside.ofPart_of_match hmatched huse hpart
    | false => exact hinside.ofPart_of_failure hmatched huse hpart

end Enclosed

end Effect

end Packrat
