import Packrat.Proofs.AttemptResult

/-!
# The furthest failure

A failure record drops and replaces labels as a parse goes on.  Compared with all the
failures so far, a record that reaches beyond the cursor holds the furthest of them, and
one that does not has nothing to say that could still matter: before the cursor goes
back behind a failure, there is another one at the cursor or further.
-/

namespace Packrat

/-- The failures among visits, each with the place where it happened. -/
def Visit.failures (visits : List Visit) : List (Nat × String) :=
  visits.filterMap fun visit => visit.failed.map fun label => (visit.position, label)

theorem Visit.failures_append (first second : List Visit) :
    failures (first ++ second) = failures first ++ failures second :=
  List.filterMap_append

namespace Failure

/-- How many positions the failures reach over. -/
def reachOf : List (Nat × String) → Nat
  | [] => 0
  | failure :: rest => max (failure.1 + 1) (reachOf rest)

/-- The labels of the failures at a position, in order. -/
def labelsAt (failures : List (Nat × String)) (position : Nat) : List String :=
  (failures.filter (·.1 = position)).map Prod.snd

/-- The record of the furthest failures. -/
def furthest (failures : List (Nat × String)) : Failure :=
  match reachOf failures with
  | 0 => .empty
  | position + 1 => ⟨some position, labelsAt failures position⟩

variable {failures first second : List (Nat × String)} {position : Nat}

theorem reachOf_append :
    reachOf (first ++ second) = max (reachOf first) (reachOf second) := by
  induction first with
  | nil => simp [reachOf]
  | cons failure rest ih => simp only [List.cons_append, reachOf, ih, Nat.max_assoc]

theorem labelsAt_append :
    labelsAt (first ++ second) position =
      labelsAt first position ++ labelsAt second position := by
  simp [labelsAt]

theorem lt_reachOf_of_mem {failure : Nat × String} (hmember : failure ∈ failures) :
    failure.1 < reachOf failures := by
  induction failures with
  | nil => simp at hmember
  | cons other rest ih =>
      rw [reachOf]
      rcases List.mem_cons.mp hmember with rfl | hrest
      · omega
      · have hlt := ih hrest
        omega

theorem labelsAt_of_reachOf_le (hreach : reachOf failures ≤ position) :
    labelsAt failures position = [] := by
  rw [labelsAt, List.map_eq_nil_iff, List.filter_eq_nil_iff]
  intro failure hmember hposition
  have hlt := lt_reachOf_of_mem hmember
  have heq : failure.1 = position := by simpa using hposition
  omega

/-- The position that the failures reach to is that of one of them. -/
theorem exists_mem_of_reachOf (hreach : reachOf failures = position + 1) :
    ∃ label, (position, label) ∈ failures := by
  induction failures with
  | nil => simp [reachOf] at hreach
  | cons failure rest ih =>
      rw [reachOf] at hreach
      by_cases hfirst : failure.1 = position
      · exact ⟨failure.2, by rw [← hfirst]; exact List.mem_cons_self⟩
      · obtain ⟨label, hlabel⟩ := ih (by omega)
        exact ⟨label, List.mem_cons_of_mem failure hlabel⟩

@[simp]
theorem reach_furthest (failures : List (Nat × String)) :
    (furthest failures).reach = reachOf failures := by
  rw [furthest]
  cases reachOf failures <;> rfl

theorem furthest_of_reachOf (hreach : reachOf failures = position + 1) :
    furthest failures = ⟨some position, labelsAt failures position⟩ := by
  rw [furthest, hreach]

theorem furthest_append_of_gt (hreach : reachOf second < reachOf first) :
    furthest (first ++ second) = furthest first := by
  obtain ⟨position, hposition⟩ : ∃ position, reachOf first = position + 1 :=
    ⟨reachOf first - 1, by omega⟩
  have hboth : reachOf (first ++ second) = position + 1 := by
    rw [reachOf_append]
    omega
  have hbehind : labelsAt second position = [] := labelsAt_of_reachOf_le (by omega)
  rw [furthest_of_reachOf hboth, furthest_of_reachOf hposition, labelsAt_append, hbehind,
    List.append_nil]

theorem furthest_append_of_lt (hreach : reachOf first < reachOf second) :
    furthest (first ++ second) = furthest second := by
  obtain ⟨position, hposition⟩ : ∃ position, reachOf second = position + 1 :=
    ⟨reachOf second - 1, by omega⟩
  have hboth : reachOf (first ++ second) = position + 1 := by
    rw [reachOf_append]
    omega
  have hbehind : labelsAt first position = [] := labelsAt_of_reachOf_le (by omega)
  rw [furthest_of_reachOf hboth, furthest_of_reachOf hposition, labelsAt_append, hbehind,
    List.nil_append]

theorem furthest_append_of_eq (hreach : reachOf first = reachOf second) :
    furthest (first ++ second) =
      ⟨(furthest first).position, (furthest first).labels ++ (furthest second).labels⟩ := by
  have hboth : reachOf (first ++ second) = reachOf first := by
    rw [reachOf_append]
    omega
  cases hposition : reachOf first with
  | zero =>
      rw [furthest, hboth, hposition, furthest, hposition, furthest, ← hreach, hposition]
      rfl
  | succ position =>
      rw [furthest_of_reachOf (hboth.trans hposition), furthest_of_reachOf hposition,
        furthest_of_reachOf (hreach.symm.trans hposition), labelsAt_append]

/-! ## Records that keep up with the failures -/

/-- As long as there is a failure at the cursor or further, the record holds the furthest
ones; otherwise it lies behind the cursor. -/
def Tracks (failure : Failure) (failures : List (Nat × String)) (cursor : Nat) : Prop :=
  if cursor < reachOf failures then failure = furthest failures
  else failure.reach ≤ cursor

variable {failure other : Failure} {cursor later : Nat}

theorem Tracks.eq_furthest (htracks : failure.Tracks failures cursor)
    (hcursor : cursor < reachOf failures) : failure = furthest failures := by
  rw [Tracks, if_pos hcursor] at htracks
  exact htracks

theorem Tracks.reach_le (htracks : failure.Tracks failures cursor)
    (hcursor : reachOf failures ≤ cursor) : failure.reach ≤ cursor := by
  rw [Tracks, if_neg (Nat.not_lt.mpr hcursor)] at htracks
  exact htracks

theorem tracks_empty (cursor : Nat) : Failure.empty.Tracks [] cursor := by
  rw [Tracks, reachOf, if_neg (Nat.not_lt_zero cursor)]
  exact Nat.zero_le cursor

theorem tracks_furthest (failures : List (Nat × String)) (cursor : Nat) :
    (furthest failures).Tracks failures cursor := by
  rw [Tracks]
  split
  · rfl
  · rw [reach_furthest]
    omega

/-- A record keeps up while the cursor advances. -/
theorem Tracks.advance (htracks : failure.Tracks failures cursor) (hlater : cursor ≤ later) :
    failure.Tracks failures later := by
  rw [Tracks]
  by_cases hcursor : cursor < reachOf failures
  · have hfurthest := htracks.eq_furthest hcursor
    rw [hfurthest]
    exact tracks_furthest failures later
  · have hreach := htracks.reach_le (Nat.not_lt.mp hcursor)
    rw [if_neg (by omega)]
    omega

/-- Joining at the cursor loses no label that could still be the furthest. -/
theorem Tracks.merge (hfirst : failure.Tracks first cursor)
    (hsecond : other.Tracks second cursor) :
    (failure.merge other cursor).Tracks (first ++ second) cursor := by
  by_cases hfirstBehind : reachOf first ≤ cursor
  · have hreach := hfirst.reach_le hfirstBehind
    by_cases hsecondBehind : reachOf second ≤ cursor
    · -- Both records lie behind the cursor and are dropped.
      have hother := hsecond.reach_le hsecondBehind
      rw [Tracks, reachOf_append, if_neg (by omega), Failure.merge, if_pos ⟨hreach, hother⟩]
      exact Nat.zero_le cursor
    · have hother := hsecond.eq_furthest (Nat.not_le.mp hsecondBehind)
      have hotherReach : other.reach = reachOf second := by rw [hother, reach_furthest]
      rw [Failure.merge, if_neg (by omega), if_neg (by omega), if_pos (by omega), hother,
        ← furthest_append_of_lt (by omega : reachOf first < reachOf second)]
      exact tracks_furthest _ cursor
  · have hfailure := hfirst.eq_furthest (Nat.not_le.mp hfirstBehind)
    have hreach : failure.reach = reachOf first := by rw [hfailure, reach_furthest]
    by_cases hsecondBehind : reachOf second ≤ cursor
    · have hother := hsecond.reach_le hsecondBehind
      rw [Failure.merge, if_neg (by omega), if_pos (by omega), hfailure,
        ← furthest_append_of_gt (by omega : reachOf second < reachOf first)]
      exact tracks_furthest _ cursor
    · have hother := hsecond.eq_furthest (Nat.not_le.mp hsecondBehind)
      have hotherReach : other.reach = reachOf second := by rw [hother, reach_furthest]
      rw [Failure.merge, if_neg (by omega)]
      rcases Nat.lt_trichotomy (reachOf first) (reachOf second) with hlt | heq | hgt
      · rw [if_neg (by omega), if_pos (by omega), hother, ← furthest_append_of_lt hlt]
        exact tracks_furthest _ cursor
      · rw [if_neg (by omega), if_neg (by omega), hfailure, hother,
          ← furthest_append_of_eq heq]
        exact tracks_furthest _ cursor
      · rw [if_pos (by omega), hfailure, ← furthest_append_of_gt hgt]
        exact tracks_furthest _ cursor

end Failure

end Packrat
