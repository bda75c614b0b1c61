import Packrat.Proofs.ParseAnswer
import Packrat.Proofs.Procedure

/-!
# What the calls of a parse show

The calls of a procedure are read from the last one to the first.  A phrase encloses the
calls between the one that opens it and the one that closes it, and the way it is closed
tells whether it belongs to a predicate.  What is left outside the arguments of
predicates are visits.  Without memory they are the visits of the attempt.
-/

namespace Packrat

variable {Value : Type}

namespace Call

/-- Whether a phrase is opened by the call.  A look-up opens one if it finds nothing. -/
def opens (call : Call Value) : Bool :=
  match call.primitive with
  | .begin .. => true
  | .consult .. => !call.result
  | _ => false

/-- The label of what fails at the call: a terminal, or a predicate that is closed as
failed and reports itself. -/
def failed? (call : Call Value) : Option String :=
  match call.primitive with
  | .next terminal | .ahead terminal => if call.result then none else some terminal.label
  | .aheadNot terminal => if call.result then none else some terminal.negate.label
  | .close closing => closing.reported call.before.current.diagnosis
  | _ => none

def visit (call : Call Value) : Visit :=
  ⟨call.after.position, call.failed?⟩

/-- Whether one of the enclosing phrases is that of a predicate. -/
def hidden (enclosing : List Closing) : Bool :=
  enclosing.any fun closing => closing.use == .predicate

/-- What can be seen of visits inside the enclosing phrases. -/
def seen (enclosing : List Closing) (visits : List Visit) : List Visit :=
  if hidden enclosing then [] else visits

/-- The visits of calls, and the closings of the phrases that enclose the first of them,
innermost first, given those that enclose what comes after the last one. -/
def scan : List (Call Value) → List Closing → List Visit × List Closing
  | [], enclosing => ([], enclosing)
  | call :: rest, enclosing =>
      let later := scan rest enclosing
      let around := if call.opens then later.2.tail else later.2
      (seen around [call.visit] ++ later.1,
        match call.primitive with
        | .close closing => closing :: around
        | _ => around)

/-- The visits of the calls of a whole parse. -/
def visits (calls : List (Call Value)) : List Visit :=
  (scan calls []).1

theorem seen_append (enclosing : List Closing) (first second : List Visit) :
    seen enclosing (first ++ second) = seen enclosing first ++ seen enclosing second := by
  cases hhidden : hidden enclosing <;> simp [seen, hhidden]

theorem seen_cons (closing : Closing) (enclosing : List Closing) (visits : List Visit) :
    seen (closing :: enclosing) visits =
      seen enclosing (if closing.use = .predicate then [] else visits) := by
  by_cases huse : closing.use = .predicate <;>
    cases hhidden : hidden enclosing <;>
    simp_all [seen, hidden]

theorem scan_append (first second : List (Call Value)) (enclosing : List Closing) :
    scan (first ++ second) enclosing =
      ((scan first (scan second enclosing).2).1 ++ (scan second enclosing).1,
        (scan first (scan second enclosing).2).2) := by
  induction first with
  | nil => rfl
  | cons call rest ih => simp only [List.cons_append, scan, ih, List.append_assoc]

/-- A call that neither opens nor closes a phrase. -/
theorem scan_singleton {call : Call Value} (hopens : call.opens = false)
    (hcloses : ∀ closing, call.primitive ≠ .close closing) (enclosing : List Closing) :
    scan [call] enclosing = (seen enclosing [call.visit], enclosing) := by
  simp only [scan, hopens, Bool.false_eq_true, if_false, List.append_nil]

theorem scan_closing {call : Call Value} {closing : Closing}
    (hcloses : call.primitive = .close closing) (enclosing : List Closing) :
    scan [call] enclosing = (seen enclosing [call.visit], closing :: enclosing) := by
  have hopens : call.opens = false := by rw [opens, hcloses]
  simp only [scan, hopens, Bool.false_eq_true, if_false, List.append_nil, hcloses]

theorem scan_opening {call : Call Value} (hopens : call.opens = true)
    {rest : List (Call Value)} {enclosing outer : List Closing} {closing : Closing}
    {visits : List Visit} (hrest : scan rest enclosing = (visits, closing :: outer)) :
    scan (call :: rest) enclosing = (seen outer [call.visit] ++ visits, outer) := by
  simp only [scan, hrest, hopens, if_true, List.tail_cons]
  cases hprimitive : call.primitive with
  | close closing => simp [opens, hprimitive] at hopens
  | _ => rfl

end Call

/-- Running the procedure realizes the attempt without memory, and its calls show the
visits of the attempt and leave no phrase half open. -/
structure Procedure.Logs (grammar : Grammar) (setting : Setting Value)
    (procedure : Procedure Value) (attempt : Attempt Value) : Prop where
  realizes : (procedure.run setting).Realizes (.unmemoized grammar) attempt
  shows : ∀ machine : Machine Value, (Regime.unmemoized grammar).Ready machine.tables →
    ∀ effect, attempt machine.position = .ok effect → ∀ enclosing,
      Call.scan (procedure.calls setting machine) enclosing =
        (Call.seen enclosing effect.visits, enclosing)

namespace Procedure.Logs

variable {grammar : Grammar} {setting : Setting Value} {procedure : Procedure Value}
variable {attempt : Attempt Value}

theorem done (matched : Bool) :
    (Procedure.done matched).Logs grammar setting (.done matched) where
  realizes := .done matched
  shows machine _ effect heffect enclosing := by
    rw [← Except.ok.inj heffect]
    simp [calls, Call.scan, Call.seen, Effect.still]

theorem fault (cause : Fault) :
    (Procedure.fault cause).Logs grammar setting (.fault cause) where
  realizes := .fault cause
  shows machine _ effect heffect := by contradiction

theorem exhausted : Procedure.exhausted.Logs grammar setting .exhausted where
  realizes := .exhausted
  shows machine _ effect heffect := by contradiction

theorem andThen {next : Bool → Procedure Value} {nextAttempt : Bool → Attempt Value}
    (hfirst : procedure.Logs grammar setting attempt)
    (hnext : ∀ matched, (next matched).Logs grammar setting (nextAttempt matched)) :
    (procedure.andThen next).Logs grammar setting (attempt.andThen nextAttempt) where
  realizes := by
    rw [run_andThen]
    exact hfirst.realizes.andThen fun matched => (hnext matched).realizes
  shows machine hready effect heffect enclosing := by
    obtain ⟨first, second, hattempt, hsecond, rfl⟩ := Attempt.andThen_eq_ok_iff.mp heffect
    have hrun := hfirst.realizes machine hready
    rw [hattempt] at hrun
    obtain ⟨between, hfinished, hbetween, hkept⟩ := hrun
    have hreadyBetween := (Regime.unmemoized grammar).ready_of_kept hready hkept
    have hshown := hfirst.shows machine hready first hattempt enclosing
    rw [← hbetween.position] at hsecond
    have hshownNext :=
      (hnext first.matched).shows between hreadyBetween second hsecond enclosing
    rw [calls_andThen_of_finished setting hfinished, Call.scan_append, hshownNext, hshown,
      ← Call.seen_append]
    rfl

theorem ite {condition : Prop} [Decidable condition] {other : Procedure Value}
    {otherAttempt : Attempt Value} (hprocedure : procedure.Logs grammar setting attempt)
    (hother : other.Logs grammar setting otherAttempt) :
    (if condition then procedure else other).Logs grammar setting
      (if condition then attempt else otherAttempt) := by
  split
  · exact hprocedure
  · exact hother

theorem all {Item : Type} {procedure : Item → Procedure Value}
    {attempt : Item → Attempt Value} (items : List Item)
    (hitem : ∀ item, (procedure item).Logs grammar setting (attempt item)) :
    (Procedure.all (items.map procedure)).Logs grammar setting
      (Attempt.all (items.map attempt)) := by
  induction items with
  | nil => exact done true
  | cons item rest ih => exact (hitem item).andThen fun _ => .ite ih (done false)

theorem any {Item : Type} {procedure : Item → Procedure Value}
    {attempt : Item → Attempt Value} (items : List Item)
    (hitem : ∀ item, (procedure item).Logs grammar setting (attempt item)) :
    (Procedure.any (items.map procedure)).Logs grammar setting
      (Attempt.any (items.map attempt)) := by
  induction items with
  | nil => exact done false
  | cons item rest ih => exact (hitem item).andThen fun _ => .ite (done true) ih

theorem ifAdvanced (start : Nat) (hagain : procedure.Logs grammar setting attempt) :
    (Procedure.ifAdvanced start procedure).Logs grammar setting
      (.ifAdvanced start attempt) where
  realizes := by
    have hrun : (Procedure.ifAdvanced start procedure).run setting =
        Grammar.ifAdvanced start (procedure.run setting) := run_ifAdvanced setting start _
    rw [hrun]
    exact .ifAdvanced start hagain.realizes
  shows machine hready effect heffect enclosing := by
    simp only [Attempt.ifAdvanced] at heffect
    by_cases hstill : machine.position = start
    · rw [if_pos hstill] at heffect
      have hdone : (Procedure.done true).Logs grammar setting (.done true) := done true
      have hshown := hdone.shows machine hready effect heffect enclosing
      simpa only [Procedure.ifAdvanced, calls, if_pos hstill] using hshown
    · rw [if_neg hstill] at heffect
      have hshown := hagain.shows machine hready effect heffect enclosing
      simpa only [Procedure.ifAdvanced, calls, if_neg hstill] using hshown

theorem round {again : Procedure Value} {againAttempt : Attempt Value}
    (hbody : procedure.Logs grammar setting attempt)
    (hagain : again.Logs grammar setting againAttempt) :
    (Procedure.round procedure again).Logs grammar setting
      (.round attempt againAttempt) where
  realizes := by
    rw [run_round]
    exact .round hbody.realizes hagain.realizes
  shows machine hready effect heffect enclosing := by
    have hrest : ∀ matched : Bool,
        (if matched then Procedure.ifAdvanced machine.position again
          else Procedure.done true).Logs grammar setting
          (if matched then .ifAdvanced machine.position againAttempt else .done true) := by
      intro matched
      exact .ite (hagain.ifAdvanced machine.position) (done true)
    exact (hbody.andThen hrest).shows machine hready effect heffect enclosing

theorem remarked (name : String) (hprocedure : procedure.Logs grammar setting attempt) :
    (Procedure.remarked name procedure).Logs grammar setting attempt where
  realizes := by
    rw [run_remarked]
    exact .remarked name hprocedure.realizes
  shows machine hready effect heffect enclosing := by
    have hrun := hprocedure.realizes machine hready
    rw [heffect] at hrun
    obtain ⟨after, hfinished, _⟩ := hrun
    have hshown := hprocedure.shows machine hready effect heffect enclosing
    simp only [Procedure.remarked, calls]
    rw [calls_andThen_of_finished setting hfinished]
    simpa only [calls, List.append_nil] using hshown

/-! ## Terminals -/

/-- A call that tests a terminal, given the label that it fails under. -/
theorem of_test {primitive : Primitive} (label : String)
    (htest : ∀ machine : Machine Value, ∃ effect after,
      attempt machine.position = .ok effect ∧
        Grammar.test setting primitive machine = .finished effect.matched after ∧
          after.core = machine.core.undergo effect)
    (hvisits : ∀ position effect, attempt position = .ok effect →
      effect.visits = [⟨effect.stop, if effect.matched then none else some label⟩])
    (hfailed : ∀ call : Call Value, call.primitive = primitive →
      call.failed? = if call.result then none else some label)
    (hopens : ∀ call : Call Value, call.primitive = primitive → call.opens = false)
    (hcloses : ∀ closing, primitive ≠ .close closing) :
    (Procedure.call primitive).Logs grammar setting attempt where
  realizes := by
    rw [run_call]
    exact .of_core_eq htest
  shows machine _ effect heffect enclosing := by
    obtain ⟨other, after, hattempt, hfinished, hcore⟩ := htest machine
    obtain rfl : other = effect := Except.ok.inj (hattempt.symm.trans heffect)
    have hposition : after.position = other.stop := congrArg Core.position hcore
    rw [calls_call setting hfinished, Call.scan_singleton (hopens _ rfl) hcloses, Call.visit,
      hfailed _ rfl, hposition, hvisits _ _ heffect]

theorem next (terminal : Terminal) :
    (Procedure.call (.next terminal)).Logs grammar setting
      (.next setting.source terminal) := by
  apply of_test terminal.label
  · intro machine
    rw [Grammar.test_next]
    exact Machine.next_eq setting terminal machine
  · intro position effect heffect
    rw [Attempt.next_eq_ok] at heffect
    rw [← Except.ok.inj heffect]
    cases terminal.matchLength? setting.source position with
    | none => rfl
    | some length => by_cases hend : terminal = .endOfText <;> simp only [hend] <;> rfl
  · rintro call hprimitive
    rw [Call.failed?, hprimitive]
  · rintro call hprimitive
    rw [Call.opens, hprimitive]
  · exact nofun

theorem ahead (terminal : Terminal) :
    (Procedure.call (.ahead terminal)).Logs grammar setting
      (.ahead setting.source terminal) := by
  apply of_test terminal.label
  · intro machine
    rw [Grammar.test_ahead]
    exact Machine.ahead_eq setting terminal machine
  · intro position effect heffect
    rw [Attempt.ahead_eq_ok] at heffect
    rw [← Except.ok.inj heffect]
    cases terminal.matchLength? setting.source position <;> rfl
  · rintro call hprimitive
    rw [Call.failed?, hprimitive]
  · rintro call hprimitive
    rw [Call.opens, hprimitive]
  · exact nofun

theorem aheadNot (terminal : Terminal) :
    (Procedure.call (.aheadNot terminal)).Logs grammar setting
      (.aheadNot setting.source terminal) := by
  apply of_test terminal.negate.label
  · intro machine
    rw [Grammar.test_aheadNot]
    exact Machine.aheadNot_eq setting terminal machine
  · intro position effect heffect
    rw [Attempt.aheadNot_eq_ok] at heffect
    rw [← Except.ok.inj heffect]
    cases terminal.matchLength? setting.source position <;> rfl
  · rintro call hprimitive
    rw [Call.failed?, hprimitive]
  · rintro call hprimitive
    rw [Call.opens, hprimitive]
  · exact nofun

/-! ## Enclosed bodies -/

variable {enclosure : Enclosure} {label : TableLabel} {ticket : Option Ticket}
variable {opened : Machine Value} {outer : List (Frame Value)} {start : Nat}

/-- From the opened phrase to the closing call. -/
theorem scan_closedAfter (hbody : procedure.Logs grammar setting attempt)
    (hready : (Regime.unmemoized grammar).Ready opened.tables)
    (hposition : opened.position = start)
    (hframes : opened.frames =
      ⟨.opened label.name label.diagnosis start, ticket⟩ :: outer)
    {inside : Effect Value} {part : Phrase Value} (hinside : attempt start = .ok inside)
    (hpart : enclosure.part? setting.source setting.semantics label start inside = .ok part)
    (enclosing : List Closing) :
    Call.scan ((closedAfter enclosure procedure).calls setting opened) enclosing =
      (Call.seen enclosing
        ((if enclosure.use = .predicate then [] else inside.visits) ++
          [⟨part.stop, (enclosure.closing inside.matched).reported label.diagnosis⟩]),
        enclosure.closing inside.matched :: enclosing) := by
  let closing := enclosure.closing inside.matched
  have hrun := hbody.realizes opened hready
  rw [hposition, hinside] at hrun
  obtain ⟨done, hfinished, hdone, _⟩ := hrun
  obtain ⟨_, hframesDone⟩ := hdone.of_frames_eq_cons hframes
  have hsettled : closing.settled? setting.source setting.semantics done.position
      (inside.applyTo (.opened label.name label.diagnosis start)) = .ok part := by
    rw [hdone.position]
    exact hpart
  obtain ⟨after, hclosed, hcore⟩ := Machine.close_of_settled hframesDone hsettled
  rw [← Grammar.test_close] at hclosed
  have hcurrent : done.current.diagnosis = label.diagnosis := by
    rw [Machine.current, hframesDone]
    rfl
  have hvisit : Call.visit ⟨done, .close closing, closing.succeeds, after⟩ =
      ⟨part.stop, closing.reported label.diagnosis⟩ := by
    simp only [Call.visit, Call.failed?, hcurrent]
    rw [show after.position = part.stop from congrArg Core.position hcore]
  have hshown := hbody.shows opened hready inside (by rw [hposition]; exact hinside)
    (closing :: enclosing)
  rw [closedAfter, calls_andThen_of_finished setting hfinished, calls_call setting hclosed,
    Call.scan_append, Call.scan_closing rfl, hvisit, hshown, Call.seen_cons,
    Enclosure.use_closing, Call.seen_append]

theorem beginning (hbody : procedure.Logs grammar setting attempt) :
    (Procedure.beginning enclosure label procedure).Logs grammar setting
      (.within setting.source setting.semantics enclosure (some label) attempt) where
  realizes := by
    rw [run_beginning]
    exact Grammar.beginning_realizes hbody.realizes
  shows machine hready effect heffect enclosing := by
    obtain ⟨other, inside, part, hlabel, hinside, hpart, rfl⟩ :=
      Attempt.within_eq_ok_iff.mp heffect
    obtain rfl := Option.some.inj hlabel
    have hbegin := Grammar.test_begin setting label.name label.diagnosis machine
    let opened := machine.begin label.name label.diagnosis none
    have hframes : opened.frames =
        ⟨.opened label.name label.diagnosis machine.position, none⟩ :: machine.frames := rfl
    have hopened : (Regime.unmemoized grammar).Ready opened.tables := hready
    have hscan := scan_closedAfter hbody hopened rfl hframes hinside hpart enclosing
    rw [Procedure.beginning, calls_perform setting hbegin, Call.scan_opening rfl hscan,
      ← Call.seen_append, Effect.visits_ofPart]
    rfl

theorem consulting {index : Nat} {inner : Bool}
    (hbody : procedure.Logs grammar setting attempt) :
    (Procedure.consulting enclosure index inner procedure).Logs grammar setting
      (.within setting.source setting.semantics enclosure
        (grammar.tableLabel? index inner) attempt) where
  realizes := by
    rw [run_consulting]
    exact Grammar.consulting_realizes_unmemoized hbody.realizes enclosure index inner
  shows machine hready effect heffect enclosing := by
    rw [Grammar.tableLabel?_of_labels hready.1] at heffect
    obtain ⟨label, inside, part, hlabel, hinside, hpart, rfl⟩ :=
      Attempt.within_eq_ok_iff.mp heffect
    obtain ⟨table, htable, rfl⟩ := Option.map_eq_some_iff.mp hlabel
    have hslots := hready.2 table (List.mem_of_getElem? htable)
    obtain ⟨opened, hconsult, hcore⟩ := Grammar.consult_of_slots_eq_nil htable hslots
    rw [← Grammar.test_consult setting] at hconsult
    have hposition : opened.position = machine.position := congrArg Core.position hcore
    let label : TableLabel := ⟨if inner then "" else table.name, table.diagnosis⟩
    have hframes : opened.frames =
        ⟨.opened label.name label.diagnosis machine.position, none⟩ :: machine.frames :=
      (Prod.mk.inj (congrArg Core.stack hcore)).2
    have htables : opened.tables = machine.tables := congrArg Core.tables hcore
    have hscan := scan_closedAfter hbody (htables ▸ hready) hposition hframes hinside hpart
      enclosing
    rw [Procedure.consulting, calls_perform setting hconsult]
    simp only [Bool.false_eq_true, if_false]
    rw [Call.scan_opening rfl hscan,
      ← Call.seen_append, Effect.visits_ofPart, Call.visit, hposition]
    rfl

end Procedure.Logs

namespace Grammar

variable (grammar : Grammar) (setting : Setting Value)

theorem procedure_logs (steps : Nat) (expression : Expression) :
    (grammar.procedure steps expression).Logs grammar setting
      (grammar.attempt setting.source setting.semantics steps expression) := by
  induction steps generalizing expression with
  | zero => exact .exhausted
  | succ steps ih =>
      cases expression with
      | terminal terminal => exact .next terminal
      | ahead terminal => exact .ahead terminal
      | aheadNot terminal => exact .aheadNot terminal
      | rule name =>
          rw [procedure, attempt]
          cases grammar.rule? name with
          | none => exact .fault .outOfRange
          | some rule =>
              apply Procedure.Logs.remarked
              have hbody : (Procedure.all (rule.body.map (grammar.procedure steps))).Logs
                  grammar setting (.all (rule.body.map
                    (grammar.attempt setting.source setting.semantics steps))) :=
                .all rule.body ih
              simp only [Procedure.ofRule, ruleLabel?]
              cases htable : rule.table with
              | none => exact hbody.beginning
              | some table =>
                  simp only [← tableLabel?_false]
                  exact hbody.consulting
      | choice alternatives => exact .any alternatives ih
      | optional body => exact (ih body).andThen fun _ => .done true
      | star body => exact (ih body).round (ih (.star body))
      | plus body =>
          exact (ih body).andThen fun _ => .ite (ih (.star body)) (.done false)
      | sequence opening parts =>
          have hbody := Procedure.Logs.all parts ih
          cases opening with
          | plain diagnosis => exact hbody.beginning
          | memoized table => exact hbody.consulting
      | andPredicate opening argument | notPredicate opening argument =>
          cases opening with
          | plain diagnosis => exact (ih argument).beginning
          | memoized table => exact (ih argument).consulting

/-- Without memory, the calls of a parse show the visits of its root attempt. -/
theorem visits_rootProcedure {steps : Nat} {machine : Machine Value}
    (hready : (Regime.unmemoized grammar).Ready machine.tables) {effect : Effect Value}
    (heffect : grammar.rootAttempt setting.source setting.semantics steps machine.position =
      .ok effect) :
    Call.visits ((grammar.rootProcedure steps).calls setting machine) = effect.visits := by
  have hlogs : (grammar.rootProcedure steps).Logs grammar setting
      (grammar.rootAttempt setting.source setting.semantics steps) := by
    rw [rootProcedure, rootAttempt]
    cases grammar.rules with
    | nil => exact .fault .outOfRange
    | cons rule rest => exact procedure_logs grammar setting steps (.rule rule.name)
  rw [Call.visits, hlogs.shows machine hready effect heffect []]
  rfl

end Grammar

end Packrat
