import Packrat.Proofs.Attempt

/-!
# The order in which records are joined

Of the records that are joined at one and the same cursor, those remain that lie furthest,
unless the cursor has passed them all.  So they may be joined in any order: what remains has the
same position and the same labels, at most in another order.
-/

namespace Packrat

namespace Failure

/-! ## What remains of several records -/

/-- How far the furthest of the records reaches. -/
def reachOfAll : List Failure → Nat
  | [] => 0
  | failure :: rest => max failure.reach (reachOfAll rest)

/-- The labels of the records that reach exactly so far, in order. -/
def labelsReaching (reach : Nat) (failures : List Failure) : List String :=
  (failures.filter (·.reach = reach)).flatMap labels

/-- The furthest of the records taken together, if the cursor has not passed them all. -/
def furthestOf (cursor : Nat) (failures : List Failure) : Failure :=
  if reachOfAll failures ≤ cursor then .empty
  else ⟨some (reachOfAll failures - 1), labelsReaching (reachOfAll failures) failures⟩

variable {failure other first second : Failure} {cursor : Nat}

theorem labelsReaching_cons (reach : Nat) (failure : Failure) (rest : List Failure) :
    labelsReaching reach (failure :: rest) =
      (if failure.reach = reach then failure.labels else []) ++ labelsReaching reach rest := by
  by_cases hreach : failure.reach = reach <;> simp [labelsReaching, hreach]

theorem position_of_reach (hreach : 0 < failure.reach) :
    failure.position = some (failure.reach - 1) := by
  cases hposition : failure.position with
  | none => simp [reach, hposition] at hreach
  | some position => simp [reach, hposition]

/-- The ways in which two records are joined. -/
theorem merge_cases (failure other : Failure) (cursor : Nat) :
    (failure.reach ≤ cursor ∧ other.reach ≤ cursor ∧ failure.merge other cursor = .empty) ∨
      (cursor < failure.reach ∧ other.reach < failure.reach ∧
        failure.merge other cursor = failure) ∨
      (cursor < other.reach ∧ failure.reach < other.reach ∧
        failure.merge other cursor = other) ∨
      (cursor < failure.reach ∧ failure.reach = other.reach ∧
        failure.merge other cursor =
          { failure with labels := failure.labels ++ other.labels }) := by
  rw [merge]
  split
  · next hbehind => exact .inl ⟨hbehind.1, hbehind.2, rfl⟩
  · split
    · exact .inr (.inl ⟨by omega, by omega, rfl⟩)
    · split
      · exact .inr (.inr (.inl ⟨by omega, by omega, rfl⟩))
      · exact .inr (.inr (.inr ⟨by omega, by omega, rfl⟩))

theorem furthestOf_singleton (failure : Failure) (hreach : cursor < failure.reach) :
    furthestOf cursor [failure] = failure := by
  obtain ⟨position, labels⟩ := failure
  have hposition := position_of_reach (Nat.zero_lt_of_lt hreach)
  simp only [furthestOf, reachOfAll, Nat.max_zero, Nat.not_le.mpr hreach, if_false]
  simp [labelsReaching, ← hposition]

/-- A record that lies behind the cursor or behind the other records does not count. -/
theorem furthestOf_cons_of_behind {rest : List Failure}
    (hbehind : failure.reach ≤ cursor ∨ failure.reach < reachOfAll rest) :
    furthestOf cursor (failure :: rest) = furthestOf cursor rest := by
  by_cases hrest : reachOfAll rest ≤ cursor
  · have hall : max failure.reach (reachOfAll rest) ≤ cursor := by omega
    simp only [furthestOf, reachOfAll, hrest, hall, if_true]
  · have hreach : max failure.reach (reachOfAll rest) = reachOfAll rest := by omega
    have hother : failure.reach ≠ reachOfAll rest := by omega
    simp only [furthestOf, reachOfAll, hreach, hrest, if_false, labelsReaching_cons, hother,
      List.nil_append]

theorem furthestOf_cons_cons_of_lt {rest : List Failure} (hbehind : other.reach < failure.reach) :
    furthestOf cursor (failure :: other :: rest) = furthestOf cursor (failure :: rest) := by
  have hreach : max failure.reach (max other.reach (reachOfAll rest)) =
      max failure.reach (reachOfAll rest) := by omega
  have hother : other.reach ≠ max failure.reach (reachOfAll rest) := by omega
  simp only [furthestOf, reachOfAll, hreach, labelsReaching_cons, hother, if_false,
    List.nil_append]

/-- Two records that are joined count as both of them for whatever is joined later. -/
theorem furthestOf_merge (failure other : Failure) (rest : List Failure) (cursor : Nat) :
    furthestOf cursor (failure.merge other cursor :: rest) =
      furthestOf cursor (failure :: other :: rest) := by
  rcases merge_cases failure other cursor with
    ⟨hfailure, hother, hmerge⟩ | ⟨hfailure, hother, hmerge⟩ | ⟨hother, hfailure, hmerge⟩ |
      ⟨hfailure, hsame, hmerge⟩
  · rw [hmerge, furthestOf_cons_of_behind (.inl (Nat.zero_le cursor)),
      furthestOf_cons_of_behind (.inl hfailure), furthestOf_cons_of_behind (.inl hother)]
  · rw [hmerge, furthestOf_cons_cons_of_lt hother]
  · have hbehind : failure.reach < reachOfAll (other :: rest) :=
      Nat.lt_of_lt_of_le hfailure (Nat.le_max_left _ _)
    rw [hmerge, furthestOf_cons_of_behind (.inr hbehind)]
  · have hreach : ({ failure with labels := failure.labels ++ other.labels } : Failure).reach =
        failure.reach := rfl
    rw [hmerge]
    simp only [furthestOf, reachOfAll, labelsReaching_cons, hreach, ← hsame, Nat.max_self,
      ← Nat.max_assoc]
    by_cases hfurthest : failure.reach = max failure.reach (reachOfAll rest)
    · simp only [← hfurthest, if_true, List.append_assoc]
    · simp only [hfurthest, if_false, List.nil_append]

theorem merge_eq_furthestOf (failure other : Failure) (cursor : Nat) :
    failure.merge other cursor = furthestOf cursor [failure, other] := by
  rw [← furthestOf_merge]
  rcases merge_cases failure other cursor with
    ⟨_, _, hmerge⟩ | ⟨hfailure, _, hmerge⟩ | ⟨hother, _, hmerge⟩ | ⟨hfailure, _, hmerge⟩ <;>
    rw [hmerge]
  · simp [furthestOf, reachOfAll]
  · exact (furthestOf_singleton failure hfailure).symm
  · exact (furthestOf_singleton other hother).symm
  · exact (furthestOf_singleton ⟨failure.position, failure.labels ++ other.labels⟩ hfailure).symm

theorem mergeAll_eq_furthestOf {records : List Failure} (hrecords : records ≠ [])
    (failure : Failure) (cursor : Nat) :
    failure.mergeAll (records.map (·, cursor)) = furthestOf cursor (failure :: records) := by
  induction records generalizing failure with
  | nil => contradiction
  | cons record rest ih =>
      by_cases hrest : rest = []
      · rw [hrest]
        exact merge_eq_furthestOf failure record cursor
      · rw [← furthestOf_merge]
        exact ih hrest _

/-! ## Another order -/

/-- The records have the same position and the same labels, up to order. -/
structure Alike (failure other : Failure) : Prop where
  position_eq : failure.position = other.position
  labels_perm : failure.labels.Perm other.labels

theorem Alike.refl (failure : Failure) : failure.Alike failure := ⟨rfl, .refl _⟩

theorem Alike.reach_eq (halike : failure.Alike other) : failure.reach = other.reach := by
  rw [reach, reach, halike.position_eq]

/-- Alike records joined to alike records yield alike records. -/
theorem Alike.merge (halike : failure.Alike other) (hjoined : first.Alike second)
    (cursor : Nat) : (failure.merge first cursor).Alike (other.merge second cursor) := by
  simp only [Failure.merge, halike.reach_eq, hjoined.reach_eq]
  split
  · exact .refl _
  · split
    · exact halike
    · split
      · exact hjoined
      · exact ⟨halike.position_eq, halike.labels_perm.append hjoined.labels_perm⟩

theorem reachOfAll_perm {failures permuted : List Failure} (hperm : failures.Perm permuted) :
    reachOfAll failures = reachOfAll permuted := by
  induction hperm with
  | nil => rfl
  | cons failure _ ih => rw [reachOfAll, reachOfAll, ih]
  | swap first second rest => simp only [reachOfAll, Nat.max_left_comm]
  | trans _ _ ihfirst ihsecond => exact ihfirst.trans ihsecond

theorem furthestOf_perm {failures permuted : List Failure} (hperm : failures.Perm permuted)
    (cursor : Nat) : (furthestOf cursor failures).Alike (furthestOf cursor permuted) := by
  rw [furthestOf, furthestOf, reachOfAll_perm hperm]
  split
  · exact .refl _
  · exact ⟨rfl, (hperm.filter _).flatMap_right _⟩

/-- Joining records at one cursor in another order yields an alike record. -/
theorem mergeAll_perm {records permuted : List Failure} (hperm : records.Perm permuted)
    (failure : Failure) (cursor : Nat) :
    (failure.mergeAll (records.map (·, cursor))).Alike
      (failure.mergeAll (permuted.map (·, cursor))) := by
  by_cases hrecords : records = []
  · subst hrecords
    rw [List.nil_perm.mp hperm]
    exact .refl _
  · have hpermuted : permuted ≠ [] := by
      rintro rfl
      exact hrecords (List.perm_nil.mp hperm)
    rw [mergeAll_eq_furthestOf hrecords, mergeAll_eq_furthestOf hpermuted]
    exact furthestOf_perm (hperm.cons failure) cursor

theorem mergeAll_perm_at {records permuted : List (Failure × Nat)}
    (hperm : records.Perm permuted) (hcursor : ∀ record ∈ records, record.2 = cursor)
    (failure : Failure) : (failure.mergeAll records).Alike (failure.mergeAll permuted) := by
  have hat : ∀ others : List (Failure × Nat), (∀ record ∈ others, record.2 = cursor) →
      others = (others.map Prod.fst).map (·, cursor) := by
    intro others hothers
    rw [List.map_map]
    exact (List.map_id _).symm.trans
      (List.map_congr_left fun record hrecord => Prod.ext rfl (hothers record hrecord))
  have hpermuted : ∀ record ∈ permuted, record.2 = cursor :=
    fun record hrecord => hcursor record (hperm.mem_iff.mpr hrecord)
  rw [hat records hcursor, hat permuted hpermuted]
  exact mergeAll_perm (hperm.map Prod.fst) failure cursor

end Failure

end Packrat
