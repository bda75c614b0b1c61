import Packrat.Proofs.AtomicFailure
import Packrat.Proofs.Positions

/-!
# The stack during a parse

Wherever a parse with a complete grammar has got to, an evaluation leaves the stack as deep as
it was, and a failing one moves nothing.  So every phrase that is closed is there, every result
that is taken has been found, and in the end nothing is left open: what can fault in a parse is
an action.
-/

namespace Packrat

variable {Value : Type} {setting : Setting Value} {grammar : Grammar}

namespace Machine

variable {machine before after : Machine Value} {matched : Bool}

/-- What it means for a machine that its core has advanced. -/
theorem stack_of_advances (hadvances : before.core.Advances matched after.core) :
    after.frames.length = before.frames.length ∧
      (after.top, after.frames) =
        Stack.changeInnermost (fun _ => after.current) (before.top, before.frames) ∧
      ∃ change, Phrase.ChangesBy change matched ∧ after.current = change before.current := by
  obtain ⟨change, hchange, hstack⟩ := hadvances.stack_eq
  cases hframes : before.frames with
  | nil =>
      simp only [core, hframes, Stack.changeInnermost, Prod.mk.injEq] at hstack
      obtain ⟨htop, hafter⟩ := hstack
      refine ⟨congrArg List.length hafter, ?_, change, hchange, ?_⟩ <;>
        simp [current, Stack.changeInnermost, hframes, hafter, htop]
  | cons frame outer =>
      simp only [core, hframes, Stack.changeInnermost, Prod.mk.injEq] at hstack
      obtain ⟨htop, hafter⟩ := hstack
      refine ⟨by rw [hafter]; rfl, ?_, change, hchange, ?_⟩ <;>
        simp [current, Stack.changeInnermost, hframes, hafter, htop]

theorem start_forward (setting : Setting Value) (hmachine : machine.HasTablesOf grammar) :
    (machine.start setting).core.Forward grammar.tables.length where
  count_le := by
    have hlabels := (labels_start setting machine).trans hmachine
    rw [← hlabels, List.length_map]
    exact Nat.le_refl _
  ledger := .of_occupied_eq_nil fun _ => occupied_start

end Machine

namespace Grammar

variable {machine state : Machine Value}

/-- The state is, as far as a parse depends on it, one that a parse with the grammar goes
through: the one at its start, or the one before or after a call. -/
def ReachesInParse (grammar : Grammar) (setting : Setting Value)
    (machine state : Machine Value) : Prop :=
  let start := machine.start setting
  ∃ steps, state.core = start.core ∨
    ∃ call ∈ (grammar.rootProcedure steps).calls setting start,
      state.core = call.before.core ∨ state.core = call.after.core

theorem ReachesInParse.forward (hgrammar : grammar.isComplete = true)
    (hmachine : machine.HasTablesOf grammar)
    (hstate : grammar.ReachesInParse setting machine state) :
    state.core.Forward grammar.tables.length := by
  have hstart : (machine.start setting).core.Forward grammar.tables.length :=
    Machine.start_forward setting hmachine
  obtain ⟨steps, hbegins | ⟨call, hcall, hplace⟩⟩ := hstate
  · rw [hbegins]
    exact hstart
  · have hcalls := (rootProcedure_isAtomic hgrammar steps _ hstart).calls hstart call hcall
    rcases hplace with hbefore | hafter
    · rw [hbefore]
      exact hcalls.1
    · rw [hafter]
      exact hcalls.2

/-- A parse faults where an action does, and nowhere else. -/
theorem parse_faults_by_action (hgrammar : grammar.isComplete = true)
    (hmachine : machine.HasTablesOf grammar) {steps : Nat} {cause : Fault}
    {after : Machine Value}
    (hparse : grammar.parse setting steps machine = .faulted cause after) :
    ∃ between, Machine.ActionFault setting (.close .accept) between after cause := by
  have hatomic : (grammar.rootProcedure steps).IsAtomic setting grammar.tables.length :=
    rootProcedure_isAtomic hgrammar steps
  have hrun := (hatomic _ (Machine.start_forward setting hmachine)).run
  rw [← root_eq_run] at hrun
  cases hroot : grammar.root setting steps (machine.start setting) with
  | exhausted => simp [parse, Machine.parse, Run.andThen, hroot] at hparse
  | faulted other left =>
      simp only [parse, Machine.parse, Run.andThen, hroot, Outcome.faulted.injEq] at hparse hrun
      obtain ⟨rfl, rfl⟩ := hparse
      exact hrun
  | finished matched left =>
      rw [hroot] at hrun
      have hframes : left.frames = [] :=
        List.eq_nil_of_length_eq_zero (Machine.stack_of_advances hrun.2).1
      obtain ⟨answer, last, hends⟩ := exists_parse_of_root hroot hframes
      rw [hends] at hparse
      contradiction

/-- Every evaluation in a parse leaves all phrases but the innermost one as they are.  If it
fails, it moves the cursor and the innermost phrase back to where they were, save for what has
been recorded as failed; if it matches, the cursor has not gone back, and parts have at most
been added to that phrase.  Only actions fault, in an evaluation and in the parse as a whole. -/
theorem evaluate_is_atomic (grammar : Grammar) (setting : Setting Value)
    (hgrammar : grammar.isComplete = true) {machine : Machine Value}
    (hmachine : machine.HasTablesOf grammar) :
    (∀ state, grammar.ReachesInParse setting machine state →
      ∀ expression : Expression, expression.isCovered grammar = true → ∀ steps,
        match grammar.evaluate setting steps expression state with
        | .finished matched after =>
            after.frames.length = state.frames.length ∧
              (after.top, after.frames) =
                Stack.changeInnermost (fun _ => after.current) (state.top, state.frames) ∧
              (matched = false →
                after.position = state.position ∧
                  after.current = { state.current with failure := after.current.failure }) ∧
              (matched = true →
                state.position ≤ after.position ∧
                  state.current.children <+: after.current.children)
        | .faulted cause after =>
            ∃ between, Machine.ActionFault setting (.close .accept) between after cause
        | .exhausted => True) ∧
      ∀ steps cause after, grammar.parse setting steps machine = .faulted cause after →
        ∃ between, Machine.ActionFault setting (.close .accept) between after cause := by
  refine ⟨?_, fun _ _ _ => parse_faults_by_action hgrammar hmachine⟩
  intro state hstate expression hexpression steps
  have hatomic : (grammar.procedure steps expression).IsAtomic setting grammar.tables.length :=
    procedure_isAtomic hgrammar steps hexpression
  have hrun := (hatomic _ (hstate.forward hgrammar hmachine)).run
  rw [evaluate_eq_run]
  cases houtcome : (grammar.procedure steps expression).run setting state with
  | exhausted => trivial
  | faulted cause after =>
      rw [houtcome] at hrun
      exact hrun
  | finished matched after =>
      rw [houtcome] at hrun
      obtain ⟨hdepth, hstack, change, hchange, hcurrent⟩ := Machine.stack_of_advances hrun.2
      refine ⟨hdepth, hstack, ?_, ?_⟩
      · intro hfailed
        refine ⟨hrun.2.position_eq hfailed, ?_⟩
        rw [hcurrent]
        exact hchange.failure_only hfailed state.current
      · intro _
        refine ⟨hrun.2.position_le, ?_⟩
        rw [hcurrent]
        exact (hchange.extends_self state.current).earlier

/-- The left operand of a sum is a sum, which is open already and so counts as failed; a memo
table tells so, and what has been opened around it is closed again. -/
theorem evaluate_is_atomic_left_recursion :
    let longer : Expression :=
      .sequence (.memoized 1) [.rule "sum", .terminal (.character '+'), .rule "sum"]
    let grammar : Grammar :=
      ⟨[⟨"sum", "", some 0, [.choice [longer, .terminal (.character 'x')]]⟩],
        [⟨"sum", ""⟩, ⟨"", "a longer sum"⟩]⟩
    let setting : Setting Nat := ⟨.ofText "x+x", .empty, ⟨1, by decide⟩⟩
    let machine := grammar.machine setting
    grammar.isComplete = true ∧ machine.HasTablesOf grammar ∧
      ∃ state after, grammar.ReachesInParse setting machine state ∧ state.frames.length = 1 ∧
        longer.isCovered grammar = true ∧
          grammar.evaluate setting 3 longer state = .finished false after ∧
            after.frames.length = 1 ∧ after.position = state.position ∧
              after.current = { state.current with failure := after.current.failure } := by
  intro longer grammar setting machine
  have hgrammar : grammar.isComplete = true := by decide
  have hmachine : machine.HasTablesOf grammar := machine_hasTablesOf grammar setting
  have hcovered : longer.isCovered grammar = true := by decide
  let start := machine.start setting
  have hopens : (test setting (.consult 0 false) start).FinishesWith fun found opened =>
      found = false ∧ opened.frames.length = 1 ∧
        (grammar.evaluate setting 3 longer opened).FinishesWith fun matched _ =>
          matched = false := by
    decide +kernel
  obtain ⟨_, state, htest, rfl, hdepth, hfails⟩ := hopens.exists_eq
  obtain ⟨_, after, hevaluate, rfl⟩ := hfails.exists_eq
  have hstate : grammar.ReachesInParse setting machine state := by
    refine ⟨2, .inr ⟨⟨start, .consult 0 false, false, state⟩, ?_, .inr rfl⟩⟩
    have hcalls : (grammar.rootProcedure 2).calls setting start = _ :: _ :=
      Procedure.calls_perform setting htest
    rw [hcalls]
    exact List.mem_cons_self
  have hatomic := (evaluate_is_atomic grammar setting hgrammar hmachine).1 state hstate longer
    hcovered 3
  rw [hevaluate] at hatomic
  obtain ⟨hsame, _, hfailed, _⟩ := hatomic
  exact ⟨hgrammar, hmachine, state, after, hstate, hdepth, hcovered, hevaluate,
    hsame.trans hdepth, hfailed rfl⟩

end Grammar

end Packrat
