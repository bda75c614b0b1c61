import Packrat.Proofs.RecordOrder

/-!
# What is left of joined records

Records are made from the empty one by emptying, by replacing everything with one label, by
recording a label and by joining.  Joining several of them at one cursor leaves nothing when the
cursor has passed them all, and otherwise the labels of those that lie furthest.  How the joins
are ordered or grouped is therefore invisible, but for the order of the labels.
-/

namespace Packrat

namespace Failure

/-! ## The records that can be made -/

inductive IsBuilt : Failure → Prop where
  | empty : IsBuilt .empty
  | clear {failure : Failure} (hfailure : IsBuilt failure) : IsBuilt .empty
  | set {failure : Failure} (hfailure : IsBuilt failure) (label : String) (position : Nat) :
      IsBuilt (.single label position)
  | record {failure : Failure} (hfailure : IsBuilt failure) (label : String) (cursor : Nat) :
      IsBuilt (failure.record label cursor)
  | merge {failure other : Failure} (hfailure : IsBuilt failure) (hother : IsBuilt other)
      (cursor : Nat) : IsBuilt (failure.merge other cursor)

/-- The record has a position exactly when it has labels. -/
def IsBalanced (failure : Failure) : Prop := failure.position = none ↔ failure.labels = []

variable {failure other : Failure} {cursor : Nat}

theorem isBalanced_empty : empty.IsBalanced := by simp [IsBalanced, empty]

theorem isBalanced_single (label : String) (position : Nat) :
    (single label position).IsBalanced := by
  simp [IsBalanced, single]

theorem IsBalanced.merge (hfailure : failure.IsBalanced) (hother : other.IsBalanced)
    (cursor : Nat) : (failure.merge other cursor).IsBalanced := by
  rcases merge_cases failure other cursor with
    ⟨_, _, hmerge⟩ | ⟨_, _, hmerge⟩ | ⟨_, _, hmerge⟩ | ⟨hreach, _, hmerge⟩ <;> rw [hmerge]
  · exact isBalanced_empty
  · exact hfailure
  · exact hother
  · have hposition : failure.position ≠ none := by
      rw [Ne, ← reach_eq_zero_iff]
      omega
    have hlabels : failure.labels ≠ [] := fun hlabels => hposition (hfailure.mpr hlabels)
    exact iff_of_false hposition fun happend => hlabels (List.append_eq_nil_iff.mp happend).1

theorem IsBuilt.isBalanced (hbuilt : failure.IsBuilt) : failure.IsBalanced := by
  induction hbuilt with
  | empty => exact isBalanced_empty
  | clear _ _ => exact isBalanced_empty
  | set _ label position _ => exact isBalanced_single label position
  | record _ label cursor ih =>
      rw [record_eq_merge]
      exact ih.merge (isBalanced_single label cursor) cursor
  | merge _ _ cursor ihfailure ihother => exact ihfailure.merge ihother cursor

/-! ## What is left -/

/-- What several records leave behind at a cursor: nothing if each of them is empty or lies
before it, and otherwise, at the largest of their positions, the labels of those that lie there. -/
inductive Leave (cursor : Nat) (failures : List Failure) : Failure → Prop where
  | nothing
      (hbehind : ∀ failure ∈ failures, ∀ position, failure.position = some position →
        position < cursor) :
      Leave cursor failures .empty
  | furthest (furthest : Nat) (hahead : cursor ≤ furthest)
      (hattained : ∃ failure ∈ failures, failure.position = some furthest)
      (hlargest : ∀ failure ∈ failures, ∀ position, failure.position = some position →
        position ≤ furthest) :
      Leave cursor failures
        ⟨some furthest, (failures.filter (·.position = some furthest)).flatMap labels⟩

theorem position_eq_some_iff (failure : Failure) (position : Nat) :
    failure.position = some position ↔ failure.reach = position + 1 := by
  cases hposition : failure.position <;> simp [reach, hposition]

theorem reach_le_reachOfAll {failures : List Failure} (hmem : failure ∈ failures) :
    failure.reach ≤ reachOfAll failures := by
  induction hmem with
  | head rest => exact Nat.le_max_left _ _
  | tail first _ ih => exact Nat.le_trans ih (Nat.le_max_right _ _)

theorem exists_reach_eq_reachOfAll {failures : List Failure} (hreach : 0 < reachOfAll failures) :
    ∃ failure ∈ failures, failure.reach = reachOfAll failures := by
  induction failures with
  | nil => simp [reachOfAll] at hreach
  | cons first rest ih =>
      rcases Nat.lt_or_ge first.reach (reachOfAll rest) with hrest | hfirst
      · obtain ⟨failure, hmem, hfailure⟩ := ih (Nat.zero_lt_of_lt hrest)
        refine ⟨failure, List.mem_cons_of_mem _ hmem, ?_⟩
        rw [hfailure, reachOfAll, Nat.max_eq_right (Nat.le_of_lt hrest)]
      · exact ⟨first, List.mem_cons_self, (Nat.max_eq_left hfirst).symm⟩

theorem leave_furthestOf (cursor : Nat) (failures : List Failure) :
    Leave cursor failures (furthestOf cursor failures) := by
  rw [furthestOf]
  split
  · next hpassed =>
      refine .nothing fun failure hmem position hposition => ?_
      have hreach := reach_le_reachOfAll hmem
      rw [(position_eq_some_iff _ _).mp hposition] at hreach
      omega
  · next hahead =>
      have hpositive : 0 < reachOfAll failures := by omega
      have hlabels : labelsReaching (reachOfAll failures) failures =
          (failures.filter (·.position = some (reachOfAll failures - 1))).flatMap labels := by
        simp only [labelsReaching, position_eq_some_iff, Nat.sub_add_cancel hpositive]
      rw [hlabels]
      refine .furthest _ (by omega) ?_ fun failure hmem position hposition => ?_
      · obtain ⟨failure, hmem, hreach⟩ := exists_reach_eq_reachOfAll hpositive
        refine ⟨failure, hmem, ?_⟩
        rw [position_of_reach (hreach ▸ hpositive), hreach]
      · have hreach := reach_le_reachOfAll hmem
        rw [(position_eq_some_iff _ _).mp hposition] at hreach
        omega

/-! ## Another grouping -/

/-- A way to join records two at a time. -/
inductive Grouping where
  | alone (failure : Failure)
  | joined (first second : Grouping)

namespace Grouping

/-- The records that are joined, from left to right. -/
def failures : Grouping → List Failure
  | alone failure => [failure]
  | joined first second => first.failures ++ second.failures

/-- The record that the joins make, all of them at one cursor. -/
def result (cursor : Nat) : Grouping → Failure
  | alone failure => failure
  | joined first second => (first.result cursor).merge (second.result cursor) cursor

end Grouping

theorem reach_furthestOf_of_passed {failures : List Failure}
    (hpassed : reachOfAll failures ≤ cursor) : (furthestOf cursor failures).reach = 0 := by
  rw [furthestOf, if_pos hpassed, reach_empty]

theorem reach_furthestOf_of_lt {failures : List Failure} (hahead : cursor < reachOfAll failures) :
    (furthestOf cursor failures).reach = reachOfAll failures := by
  rw [furthestOf, if_neg (Nat.not_le.mpr hahead)]
  exact Nat.sub_add_cancel (Nat.zero_lt_of_lt hahead)

theorem labelsReaching_eq_nil {failures : List Failure} {reach : Nat}
    (hreach : reachOfAll failures < reach) : labelsReaching reach failures = [] := by
  have hnone : ∀ failure ∈ failures, ¬ failure.reach = reach := by
    intro failure hmem hfailure
    have hle := reach_le_reachOfAll hmem
    omega
  rw [labelsReaching, List.filter_eq_nil_iff.mpr (by simpa using hnone), List.flatMap_nil]

/-- A record before others is joined to what is left of these. -/
theorem furthestOf_cons (cursor : Nat) (failure : Failure) (rest : List Failure) :
    furthestOf cursor (failure :: rest) = failure.merge (furthestOf cursor rest) cursor := by
  by_cases hbehind : failure.reach ≤ cursor ∨ failure.reach < reachOfAll rest
  · rw [furthestOf_cons_of_behind hbehind]
    by_cases hrest : reachOfAll rest ≤ cursor
    · have hreach := reach_furthestOf_of_passed hrest
      rw [merge, if_pos (by omega), furthestOf, if_pos hrest]
    · have hreach := reach_furthestOf_of_lt (Nat.not_le.mp hrest)
      rw [merge, if_neg (by omega), if_neg (by omega), if_pos (by omega)]
  · have hmax : max failure.reach (reachOfAll rest) = failure.reach := by omega
    have hleft : furthestOf cursor (failure :: rest) =
        { failure with labels := failure.labels ++ labelsReaching failure.reach rest } := by
      rw [furthestOf, reachOfAll, hmax, if_neg (by omega), labelsReaching_cons, if_pos rfl,
        ← position_of_reach (by omega)]
    rw [hleft]
    rcases Nat.lt_or_ge (reachOfAll rest) failure.reach with hrest | hrest
    · have hreach : (furthestOf cursor rest).reach < failure.reach := by
        by_cases hpassed : reachOfAll rest ≤ cursor
        · rw [reach_furthestOf_of_passed hpassed]
          omega
        · rwa [reach_furthestOf_of_lt (Nat.not_le.mp hpassed)]
      rw [merge, if_neg (by omega), if_pos hreach, labelsReaching_eq_nil hrest, List.append_nil]
    · have hsame : reachOfAll rest = failure.reach := by omega
      have hahead : cursor < reachOfAll rest := by omega
      have hreach := reach_furthestOf_of_lt hahead
      rw [merge, if_neg (by omega), if_neg (by omega), if_neg (by omega), furthestOf,
        if_neg (by omega), hsame]

theorem furthestOf_append_congr {failures others : List Failure}
    (hleft : furthestOf cursor failures = furthestOf cursor others) (before : List Failure) :
    furthestOf cursor (before ++ failures) = furthestOf cursor (before ++ others) := by
  induction before with
  | nil => exact hleft
  | cons first rest ih =>
      rw [List.cons_append, List.cons_append, furthestOf_cons, ih, furthestOf_cons]

/-- Records that have been joined with one another count as all of them for whatever stands
after them. -/
theorem furthestOf_result (cursor : Nat) (grouping : Grouping) (after : List Failure) :
    furthestOf cursor (grouping.result cursor :: after) =
      furthestOf cursor (grouping.failures ++ after) := by
  induction grouping generalizing after with
  | alone failure => rfl
  | joined first second ihfirst ihsecond =>
      calc furthestOf cursor ((first.result cursor).merge (second.result cursor) cursor :: after)
          = furthestOf cursor (first.result cursor :: second.result cursor :: after) :=
            furthestOf_merge _ _ _ _
        _ = furthestOf cursor (first.failures ++ second.result cursor :: after) := ihfirst _
        _ = furthestOf cursor (first.failures ++ (second.failures ++ after)) :=
            furthestOf_append_congr (ihsecond after) first.failures
        _ = furthestOf cursor ((first.joined second).failures ++ after) := by
            rw [Grouping.failures, List.append_assoc]

theorem result_joined (cursor : Nat) (first second : Grouping) :
    (first.joined second).result cursor =
      furthestOf cursor (first.joined second).failures := by
  calc (first.result cursor).merge (second.result cursor) cursor
      = furthestOf cursor [first.result cursor, second.result cursor] := merge_eq_furthestOf _ _ _
    _ = furthestOf cursor (first.failures ++ [second.result cursor]) :=
        furthestOf_result cursor first _
    _ = furthestOf cursor (first.failures ++ (second.failures ++ [])) :=
        furthestOf_append_congr (furthestOf_result cursor second []) first.failures
    _ = furthestOf cursor (first.joined second).failures := by
        rw [List.append_nil, Grouping.failures]

/-- However two or more records are grouped and ordered, joining them yields a record like the
one that joining them in turn yields. -/
theorem result_alike_mergeAll {records : List Failure} (hrecords : records ≠ [])
    {grouping : Grouping} (hperm : grouping.failures.Perm (failure :: records)) (cursor : Nat) :
    (grouping.result cursor).Alike (failure.mergeAll (records.map (·, cursor))) := by
  cases grouping with
  | alone only =>
      have hlength := hperm.length_eq
      have hpositive := List.length_pos_iff.mpr hrecords
      simp only [Grouping.failures, List.length_cons, List.length_nil] at hlength
      omega
  | joined first second =>
      rw [result_joined, mergeAll_eq_furthestOf hrecords]
      exact furthestOf_perm hperm cursor

/-- Every record that can be made has a position exactly when it has labels.  Joining a record
with others at a cursor leaves the labels of the furthest ones, in order, or nothing if the cursor
has passed them all; any other order or grouping of the joins leaves the same position and the
same labels up to order.  Recording a label is joining the record of that label. -/
theorem furthest_wins :
    (∀ failure : Failure, failure.IsBuilt →
      (failure.position = none ↔ failure.labels = [])) ∧
    (∀ (failure : Failure) (records : List Failure) (cursor : Nat), records ≠ [] →
      Leave cursor (failure :: records) (failure.mergeAll (records.map (·, cursor))) ∧
      (∀ permuted : List Failure, permuted.Perm records →
        (failure.mergeAll (permuted.map (·, cursor))).Alike
          (failure.mergeAll (records.map (·, cursor)))) ∧
      ∀ grouping : Grouping, grouping.failures.Perm (failure :: records) →
        (grouping.result cursor).Alike (failure.mergeAll (records.map (·, cursor)))) ∧
    ∀ (failure : Failure) (label : String) (cursor : Nat),
      failure.record label cursor = failure.merge (.single label cursor) cursor := by
  refine ⟨fun failure hbuilt => hbuilt.isBalanced, fun failure records cursor hrecords => ?_,
    record_eq_merge⟩
  refine ⟨?_, fun permuted hperm => mergeAll_perm hperm failure cursor,
    fun grouping hperm => result_alike_mergeAll hrecords hperm cursor⟩
  rw [mergeAll_eq_furthestOf hrecords]
  exact leave_furthestOf cursor (failure :: records)

/-- Three records of which the cursor has passed one: the accumulated record is dropped on the
way and what comes later counts. -/
theorem furthest_wins_letters :
    (((empty.record "'a'" 1).position = none ↔ (empty.record "'a'" 1).labels = []) ∧
      Leave 3 [empty.record "'a'" 1, single "'b'" 2, single "'c'" 4]
        ((empty.record "'a'" 1).mergeAll [(single "'b'" 2, 3), (single "'c'" 4, 3)]) ∧
      ((empty.record "'a'" 1).mergeAll [(single "'c'" 4, 3), (single "'b'" 2, 3)]).Alike
        ((empty.record "'a'" 1).mergeAll [(single "'b'" 2, 3), (single "'c'" 4, 3)]) ∧
      ((Grouping.joined (.alone (single "'c'" 4))
          (.joined (.alone (single "'b'" 2)) (.alone (empty.record "'a'" 1)))).result 3).Alike
        ((empty.record "'a'" 1).mergeAll [(single "'b'" 2, 3), (single "'c'" 4, 3)])) ∧
    (empty.record "'a'" 1).mergeAll [(single "'b'" 2, 3), (single "'c'" 4, 3)] =
      single "'c'" 4 := by
  have hjoined := furthest_wins.2.1 (empty.record "'a'" 1) [single "'b'" 2, single "'c'" 4] 3
    (List.cons_ne_nil _ _)
  exact ⟨⟨furthest_wins.1 _ (.record .empty "'a'" 1), hjoined.1,
    hjoined.2.1 [single "'c'" 4, single "'b'" 2] (.swap _ _ _),
    hjoined.2.2 _ (List.reverse_perm [empty.record "'a'" 1, single "'b'" 2, single "'c'" 4])⟩,
    by decide⟩

end Failure

end Packrat
