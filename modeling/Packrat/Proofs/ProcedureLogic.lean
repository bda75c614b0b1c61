import Packrat.Proofs.PrimitiveSteps
import Packrat.Proofs.Procedure

/-!
# What a procedure ensures

A procedure is a tree of calls, so what it ensures can be said along the tree: each call is
permitted, each keeps an invariant, and the end is as it should be.  The rules follow the
ways in which procedures are composed, and what is ensured holds of every run, also of the
machines in between.
-/

namespace Packrat

variable {Value : Type}

namespace Procedure

/-- From a core on, every call is permitted and keeps the invariant, and the procedure ends
in its postcondition.  Using up the steps is no end. -/
def Ensures (setting : Setting Value) (invariant : Core Value → Prop)
    (post : Bool → Core Value → Prop) : Procedure Value → Core Value → Prop
  | .done matched, core => post matched core
  | .fault _, _ => False
  | .exhausted, _ => True
  | .look view, core => Ensures setting invariant post (view core.position) core
  | .note _ rest, core => Ensures setting invariant post rest core
  | .perform primitive rest, core =>
      core.Permits primitive ∧
        ∀ answer after, Core.Step setting primitive core answer after →
          invariant after ∧ Ensures setting invariant post (rest (answer.getD true)) after

variable {setting : Setting Value} {invariant : Core Value → Prop}
variable {post : Bool → Core Value → Prop} {procedure : Procedure Value} {core : Core Value}

namespace Ensures

theorem mono {weaker : Bool → Core Value → Prop}
    (hprocedure : procedure.Ensures setting invariant post core)
    (hpost : ∀ matched after, post matched after → weaker matched after) :
    procedure.Ensures setting invariant weaker core := by
  induction procedure generalizing core with
  | done matched => exact hpost matched core hprocedure
  | fault cause => exact hprocedure
  | exhausted => trivial
  | look view ih => exact ih core.position hprocedure
  | note entry rest ih => exact ih hprocedure
  | perform primitive rest ih =>
      refine ⟨hprocedure.1, ?_⟩
      intro answer after hstep
      obtain ⟨hinvariant, hrest⟩ := hprocedure.2 answer after hstep
      exact ⟨hinvariant, ih _ hrest⟩

theorem andThen {next : Bool → Procedure Value}
    (hprocedure : procedure.Ensures setting invariant
      (fun matched between => (next matched).Ensures setting invariant post between) core) :
    (procedure.andThen next).Ensures setting invariant post core := by
  induction procedure generalizing core with
  | done matched => exact hprocedure
  | fault cause => exact hprocedure
  | exhausted => trivial
  | look view ih => exact ih core.position hprocedure
  | note entry rest ih => exact ih hprocedure
  | perform primitive rest ih =>
      refine ⟨hprocedure.1, ?_⟩
      intro answer after hstep
      obtain ⟨hinvariant, hrest⟩ := hprocedure.2 answer after hstep
      exact ⟨hinvariant, ih _ hrest⟩

theorem call {primitive : Primitive} (hpermits : core.Permits primitive)
    (hstep : ∀ answer after, Core.Step setting primitive core answer after →
      invariant after ∧ post (answer.getD true) after) :
    (Procedure.call primitive).Ensures setting invariant post core :=
  ⟨hpermits, hstep⟩

/-- Remarks are of no consequence. -/
theorem remarked (hprocedure : procedure.Ensures setting invariant post core)
    (name : String) : (procedure.remarked name).Ensures setting invariant post core :=
  andThen (hprocedure.mono fun _ _ hpost => hpost)

/-- A run faults only because of an action, and ends in the postcondition. -/
theorem run {machine : Machine Value}
    (hprocedure : procedure.Ensures setting invariant post machine.core) :
    match procedure.run setting machine with
    | .finished matched after => post matched after.core
    | .faulted cause after =>
        ∃ between, Machine.ActionFault setting (.close .accept) between after cause
    | .exhausted => True := by
  induction procedure generalizing machine with
  | done matched => exact hprocedure
  | fault cause => exact hprocedure.elim
  | exhausted => trivial
  | look view ih => exact ih machine.position hprocedure
  | note entry rest ih => exact ih hprocedure
  | perform primitive rest ih =>
      obtain ⟨hpermits, hrest⟩ := hprocedure
      simp only [Procedure.run, Run.andThen]
      cases htest : Grammar.test setting primitive machine with
      | finished result between =>
          obtain ⟨answer, hperform, rfl⟩ := Run.finished_of_map htest
          exact ih _ (hrest answer between.core (Machine.step_of_perform hperform)).2
      | faulted cause after =>
          have hfault := (Machine.fault_of_perform (Run.faulted_of_map htest)).resolve_left
            fun hrefused => hrefused.1 hpermits
          obtain rfl := hfault.primitive_eq
          exact ⟨machine, hfault⟩
      | exhausted => trivial

/-- The invariant holds before and after every call. -/
theorem calls {machine : Machine Value} (hinvariant : invariant machine.core)
    (hprocedure : procedure.Ensures setting invariant post machine.core) :
    ∀ call ∈ procedure.calls setting machine,
      invariant call.before.core ∧ invariant call.after.core := by
  induction procedure generalizing machine with
  | done | fault | exhausted => exact List.forall_mem_nil _
  | look view ih => exact ih machine.position hinvariant hprocedure
  | note entry rest ih => exact ih hinvariant hprocedure
  | perform primitive rest ih =>
      simp only [Procedure.calls]
      cases htest : Grammar.test setting primitive machine with
      | finished result between =>
          obtain ⟨answer, hperform, rfl⟩ := Run.finished_of_map htest
          obtain ⟨hbetween, hrest⟩ :=
            hprocedure.2 answer between.core (Machine.step_of_perform hperform)
          exact List.forall_mem_cons.mpr ⟨⟨hinvariant, hbetween⟩, ih _ hbetween hrest⟩
      | faulted | exhausted => exact List.forall_mem_nil _

end Ensures

/-! ## Procedures that always match -/

/-- Whatever its calls answer, the procedure ends with a match, if it ends. -/
def AlwaysMatches : Procedure Value → Prop
  | .done matched => matched = true
  | .fault _ | .exhausted => True
  | .look view => ∀ position, AlwaysMatches (view position)
  | .note _ rest => AlwaysMatches rest
  | .perform _ rest => ∀ result, AlwaysMatches (rest result)

theorem AlwaysMatches.done : (Procedure.done true : Procedure Value).AlwaysMatches :=
  rfl

theorem AlwaysMatches.andThen {next : Bool → Procedure Value}
    (hnext : ∀ matched, (next matched).AlwaysMatches) (procedure : Procedure Value) :
    (procedure.andThen next).AlwaysMatches := by
  induction procedure with
  | done matched => exact hnext matched
  | fault cause => trivial
  | exhausted => trivial
  | look view ih => exact ih
  | note entry rest ih => exact ih
  | perform primitive rest ih => exact ih

theorem AlwaysMatches.round (body : Procedure Value) {again : Procedure Value}
    (hagain : again.AlwaysMatches) : (Procedure.round body again).AlwaysMatches := by
  intro start
  apply AlwaysMatches.andThen
  intro matched
  cases matched with
  | false => rfl
  | true =>
      intro position
      dsimp only
      split
      · rfl
      · exact hagain

theorem Ensures.of_alwaysMatches (hmatches : procedure.AlwaysMatches)
    (hprocedure : procedure.Ensures setting invariant post core) :
    procedure.Ensures setting invariant (fun matched after => matched = true ∧ post matched after)
      core := by
  induction procedure generalizing core with
  | done matched => exact ⟨hmatches, hprocedure⟩
  | fault cause => exact hprocedure
  | exhausted => trivial
  | look view ih => exact ih core.position (hmatches core.position) hprocedure
  | note entry rest ih => exact ih hmatches hprocedure
  | perform primitive rest ih =>
      refine ⟨hprocedure.1, ?_⟩
      intro answer after hstep
      obtain ⟨hinvariant, hrest⟩ := hprocedure.2 answer after hstep
      exact ⟨hinvariant, ih _ (hmatches _) hrest⟩

end Procedure

end Packrat
