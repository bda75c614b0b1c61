import Packrat.Proofs.History
import Packrat.Proofs.Shape

/-!
# Actions do not influence the parse

An action is handed a phrase and yields a value, and no primitive looks at values.  So a parse
does to the shape of a machine what it would do without any actions, and two parses that differ
in their actions only go in lockstep, whatever root procedure drives them.
-/

namespace Packrat

variable {Value : Type} {setting : Setting Value}

/-- The outcome without values. -/
def Outcome.shape {Result Shape : Type} (convert : Result → Shape) :
    Outcome Value Result → Outcome Unit Shape
  | .finished result machine => .finished (convert result) machine.shape
  | .faulted cause machine => .faulted cause machine.shape
  | .exhausted => .exhausted

/-- The events of the machine that is left, if any is. -/
def Outcome.events? {Result : Type} (outcome : Outcome Value Result) : Option (List Event) :=
  outcome.left?.map fun machine => eventsOf machine.journal.entries

theorem Outcome.events?_shape {Result Shape : Type} (convert : Result → Shape)
    (outcome : Outcome Value Result) : (outcome.shape convert).events? = outcome.events? := by
  cases outcome with
  | finished result machine | faulted cause machine =>
      exact congrArg some machine.journal.eventsOf_shape
  | exhausted => rfl

/-! ## Primitives -/

namespace Machine

variable {machine : Machine Value} {primitive : Primitive}

theorem shape_withTables (setting : Setting Value) (labels : List TableLabel) :
    (withTables setting labels).shape = withTables setting.bare labels := by
  rw [withTables, withTables]
  exact (List.foldl_hom shape fun machine label =>
    (shape_addTable setting machine label.name label.diagnosis).symm).symm

theorem shape_map {run : Run Value Bool} {bare : Run Unit Bool}
    (hrun : (run machine).shape id = bare machine.shape) :
    (run.map some machine).shape id = bare.map some machine.shape := by
  simp only [Run.map, Run.andThen, ← hrun]
  cases run machine <;> rfl

theorem shape_valueAfter {closing : Closing} {phrase : Phrase Value} {value : Option Value}
    {after : Machine Value}
    (hvalue : valueAfter setting closing phrase machine = .finished value after) :
    after.shape = machine.shape := by
  cases closing with
  | accept =>
      simp only [valueAfter, act] at hvalue
      cases haction : setting.semantics.action? phrase.name with
      | none =>
          simp only [haction] at hvalue
          rw [(Outcome.finished.inj hvalue).2]
      | some action =>
          simp only [haction] at hvalue
          split at hvalue
          · rw [← (Outcome.finished.inj hvalue).2]
            rfl
          · contradiction
  | _ => rw [(Outcome.finished.inj hvalue).2]

theorem valueAfter_bare (setting : Setting Value) (closing : Closing) (phrase : Phrase Value)
    (machine : Machine Unit) :
    valueAfter setting.bare closing phrase.shape machine = .finished none machine := by
  cases closing <;> simp [valueAfter, act, Setting.bare, Semantics.empty, Semantics.action?]

/-- An action that faults is what makes closing a phrase fault. -/
theorem exists_valueAfter {closing : Closing} {phrase : Phrase Value} {ticket : Option Ticket}
    {outer : List (Frame Value)} (hframes : machine.frames = ⟨phrase, ticket⟩ :: outer)
    (hcalm : ∀ cause after, ¬ActionFault setting (.close closing) machine after cause) :
    ∃ value after, valueAfter setting closing phrase { machine with frames := outer } =
      .finished value after := by
  cases hvalue : valueAfter setting closing phrase { machine with frames := outer } with
  | finished value after => exact ⟨value, after, rfl⟩
  | faulted cause after =>
      have hclose : close setting closing machine = .faulted cause after := by
        simp only [close, hframes, hvalue]
      rcases fault_of_close hclose with ⟨hnone, _⟩ | hfault
      · rw [hframes] at hnone
        contradiction
      · exact absurd hfault (hcalm cause after)
  | exhausted =>
      obtain ⟨_, _, hother⟩ := valueAfter_eq setting closing phrase { machine with frames := outer }
      rw [hvalue] at hother
      split at hother <;> contradiction

theorem shape_close {closing : Closing}
    (hcalm : ∀ cause after, ¬ActionFault setting (.close closing) machine after cause) :
    (close setting closing machine).shape id = close setting.bare closing machine.shape := by
  cases hframes : machine.frames with
  | nil =>
      have hshape : machine.shape.frames = [] := by simp [shape, hframes]
      rw [close_of_frames_eq_nil hframes, close_of_frames_eq_nil hshape]
      rfl
  | cons frame outer =>
      obtain ⟨phrase, ticket⟩ := frame
      obtain ⟨value, popped, hvalue⟩ := exists_valueAfter hframes hcalm
      have hpopped : popped.shape = { machine.shape with frames := outer.map Frame.shape } :=
        shape_valueAfter hvalue
      have hshape : machine.shape.frames = ⟨phrase.shape, ticket⟩ :: outer.map Frame.shape := by
        simp [shape, hframes, Frame.shape]
      have hsettled := phrase.shape_settle closing popped.position value
      have hstop := phrase.stop_settle_shape closing popped.position
      simp only [close, hframes, hvalue, hshape, ← hpopped, valueAfter_bare, Outcome.shape,
        shape_absorb, shape_fill, shape_noteClosed, shape_moveTo, hsettled]
      rw [← hstop]
      rfl

theorem shape_terminal (terminal : Terminal) :
    (ahead setting terminal machine).shape id = ahead setting.bare terminal machine.shape ∧
      (aheadNot setting terminal machine).shape id =
        aheadNot setting.bare terminal machine.shape ∧
      (next setting terminal machine).shape id = next setting.bare terminal machine.shape := by
  have hmatch : terminal.matchLength? setting.bare.source machine.shape.position =
      terminal.matchLength? setting.source machine.position := rfl
  have hahead : (ahead setting terminal machine).shape id =
      ahead setting.bare terminal machine.shape := by
    simp only [ahead, hmatch, ← shape_fail]
    cases terminal.matchLength? setting.source machine.position <;> rfl
  refine ⟨hahead, ?_, ?_⟩
  · simp only [aheadNot, hmatch, ← shape_fail]
    cases terminal.matchLength? setting.source machine.position <;> rfl
  · simp only [next]
    split
    · next hend => exact hend ▸ hahead
    · simp only [hmatch, ← shape_fail, ← shape_consume]
      cases terminal.matchLength? setting.source machine.position <;> rfl

theorem shape_consult (index : Nat) (inner : Bool) :
    (consult index inner machine).shape id = consult index inner machine.shape := by
  have htable : machine.shape.tables[index]? = machine.tables[index]?.map MemoTable.shape :=
    List.getElem?_map
  simp only [consult, htable]
  cases machine.tables[index]? with
  | none => rfl
  | some table =>
      have hposition : machine.shape.position = machine.position := rfl
      simp only [Option.map_some, hposition, MemoTable.shape_find, MemoTable.shape_save]
      cases (table.find machine.position).1 with
      | hit part =>
          simp only [Lookup.shape, Outcome.shape, shape_offer, shape_noteEvent, shape_setTable,
            Phrase.success_shape]
          rfl
      | pending =>
          simp only [Lookup.shape, Outcome.shape, shape_offer, shape_noteEvent, shape_setTable]
          rfl
      | miss =>
          simp only [Lookup.shape, Outcome.shape, shape_begin]
          cases ((table.find machine.position).2.save machine.position).1.bind
            Reservation.evicted <;>
            simp only [shape_noteEvent, shape_setTable] <;> rfl

theorem shape_reuse (use : PhraseUse) :
    (reuse use machine).shape id = reuse use machine.shape := by
  have hcandidate : machine.shape.candidate = machine.candidate.map Phrase.shape := rfl
  simp only [reuse, hcandidate]
  cases machine.candidate with
  | none => rfl
  | some part =>
      simp only [Option.map_some, Phrase.success_shape, Phrase.stop_shape]
      split <;> simp only [Outcome.shape, shape_absorb] <;> rfl

/-- Unless an action faults, a primitive does to the shape what it does without actions. -/
theorem shape_perform
    (hcalm : ∀ cause after, ¬ActionFault setting primitive machine after cause) :
    (perform setting primitive machine).shape id =
      perform setting.bare primitive machine.shape := by
  cases primitive with
  | addTable name diagnosis =>
      simp only [perform, Run.map, Run.andThen, Run.change, ← shape_addTable]
      rfl
  | begin name diagnosis =>
      simp only [perform, Run.map, Run.andThen, Run.change, ← shape_begin]
      rfl
  | close closing => exact shape_map (shape_close hcalm)
  | next terminal => exact shape_map (shape_terminal terminal).2.2
  | ahead terminal => exact shape_map (shape_terminal terminal).1
  | aheadNot terminal => exact shape_map (shape_terminal terminal).2.1
  | consult index inner => exact shape_map (shape_consult index inner)
  | reuse use => exact shape_map (shape_reuse use)

/-! ## Judging a parse -/

theorem shape_rootPhrase (top : Phrase Value) (position : Nat) :
    (rootPhrase top position).shape = rootPhrase top.shape position := by
  rw [rootPhrase, rootPhrase, Phrase.children_shape]
  rcases top.children with _ | ⟨root, _ | ⟨second, rest⟩⟩ <;> simp [Phrase.shape_eq]

theorem report?_shape (setting : Setting Value) (top : Phrase Value) (position : Nat) :
    report? setting.bare top.shape position = report? setting top position := by
  rw [report?, report?, Phrase.error?, Phrase.error?, Phrase.failure_shape]
  rfl

theorem shape_conclude (matched : Bool) :
    (conclude setting matched machine).shape (·.map Phrase.shape) =
      conclude setting.bare matched machine.shape := by
  have hframes : machine.shape.frames.isEmpty = machine.frames.isEmpty := List.isEmpty_map
  have hlength : machine.shape.frames.length = machine.frames.length := List.length_map _
  simp only [conclude, hframes, hlength, ← shape_publishTables]
  cases machine.frames.isEmpty with
  | false => rfl
  | true =>
      cases matched with
      | true =>
          simp only [if_true, Outcome.shape, Except.map, shape_rootPhrase]
          rfl
      | false =>
          have hreport : report? setting.bare machine.publishTables.shape.top
              machine.publishTables.shape.position =
                report? setting machine.publishTables.top machine.publishTables.position :=
            report?_shape setting _ _
          simp only [if_true, Bool.false_eq_true, if_false, hreport]
          cases report? setting machine.publishTables.top machine.publishTables.position <;> rfl

end Machine

/-! ## Root procedures -/

/-- What can be seen of a primitive at most: its answer, and all of the machine but the
values. -/
structure Glimpse where
  answer : Option Bool
  machine : Machine Unit

/-- What a root procedure does next. -/
inductive Move where
  | perform (primitive : Primitive)
  | answer (matched : Bool)
  | fault (cause : Fault)

/-- A root procedure, which decides on its next move in view of all it has seen so far, the
latest first. -/
abbrev Strategy := List Glimpse → Move

/-- A primitive that is performed, on which machine and with what outcome. -/
structure Moment (Value : Type) where
  primitive : Primitive
  before : Machine Value
  outcome : Outcome Value (Option Bool)

def Moment.shape (moment : Moment Value) : Moment Unit :=
  ⟨moment.primitive, moment.before.shape, moment.outcome.shape id⟩

/-- No action faults at this moment. -/
def Moment.Calm (setting : Setting Value) (moment : Moment Value) : Prop :=
  ∀ cause after, ¬Machine.ActionFault setting moment.primitive moment.before after cause

namespace Strategy

/-- Follows a strategy for a number of primitives. -/
def run (setting : Setting Value) (strategy : Strategy) :
    Nat → List Glimpse → Run Value Bool
  | 0, _ => .exhausted
  | steps + 1, seen =>
      match strategy seen with
      | .answer matched => .done matched
      | .fault cause => .fault cause
      | .perform primitive =>
          (Machine.perform setting primitive).andThen fun answer machine =>
            run setting strategy steps (⟨answer, machine.shape⟩ :: seen) machine

/-- The primitives that are performed, including the one that faults. -/
def moments (setting : Setting Value) (strategy : Strategy) :
    Nat → List Glimpse → Machine Value → List (Moment Value)
  | 0, _, _ => []
  | steps + 1, seen, machine =>
      match strategy seen with
      | .answer _ | .fault _ => []
      | .perform primitive =>
          ⟨primitive, machine, Machine.perform setting primitive machine⟩ ::
            match Machine.perform setting primitive machine with
            | .finished answer after =>
                moments setting strategy steps (⟨answer, after.shape⟩ :: seen) after
            | _ => []

/-- The moments of a parse. -/
def momentsOfParse (setting : Setting Value) (strategy : Strategy) (steps : Nat)
    (machine : Machine Value) : List (Moment Value) :=
  strategy.moments setting steps [] (machine.start setting)

/-- A parse that follows a strategy. -/
def parse (setting : Setting Value) (strategy : Strategy) (steps : Nat) :
    Run Value (Except ParseError (Phrase Value)) :=
  Machine.parse setting (strategy.run setting steps [])

variable {First Second : Type} {one : Setting First} {other : Setting Second}
variable {strategy : Strategy} {steps : Nat}

/-- Two runs that start with the same shape go in lockstep. -/
theorem lockstep (hbare : one.bare = other.bare) (seen : List Glimpse)
    {first : Machine First} {second : Machine Second} (hshape : first.shape = second.shape)
    (hfirst : ∀ moment ∈ strategy.moments one steps seen first, moment.Calm one)
    (hsecond : ∀ moment ∈ strategy.moments other steps seen second, moment.Calm other) :
    (strategy.moments one steps seen first).map Moment.shape =
        (strategy.moments other steps seen second).map Moment.shape ∧
      (strategy.run one steps seen first).shape id =
        (strategy.run other steps seen second).shape id := by
  induction steps generalizing seen first second with
  | zero => exact ⟨rfl, rfl⟩
  | succ steps ih =>
      cases hmove : strategy seen with
      | answer matched => simp [moments, run, hmove, Run.done, Outcome.shape, hshape]
      | fault cause => simp [moments, run, hmove, Run.fault, Outcome.shape, hshape]
      | perform primitive =>
          simp only [moments, hmove, List.forall_mem_cons] at hfirst hsecond
          have hperform : (Machine.perform one primitive first).shape id =
              (Machine.perform other primitive second).shape id := by
            rw [Machine.shape_perform hfirst.1, Machine.shape_perform hsecond.1, hbare, hshape]
          simp only [moments, run, hmove, Run.andThen, List.map_cons, Moment.shape, hshape,
            hperform]
          generalize Machine.perform one primitive first = firstOutcome at *
          generalize Machine.perform other primitive second = secondOutcome at *
          cases firstOutcome <;> cases secondOutcome <;>
            simp only [Outcome.shape, reduceCtorEq, Outcome.finished.injEq,
              Outcome.faulted.injEq, id] at hperform
          case finished.finished answer firstAfter otherAnswer secondAfter =>
            obtain ⟨rfl, hafter⟩ := hperform
            have hrest := ih (⟨answer, firstAfter.shape⟩ :: seen) hafter hfirst.2
              (hafter ▸ hsecond.2)
            simp only [hafter] at hrest ⊢
            exact ⟨congrArg _ hrest.1, hrest.2⟩
          case faulted.faulted => simp [Outcome.shape, hperform]
          case exhausted.exhausted => exact ⟨rfl, rfl⟩

/-- Two parses that start with the same shape go in lockstep. -/
theorem parse_lockstep (hbare : one.bare = other.bare) {first : Machine First}
    {second : Machine Second} (hshape : first.shape = second.shape)
    (hfirst : ∀ moment ∈ strategy.momentsOfParse one steps first, moment.Calm one)
    (hsecond : ∀ moment ∈ strategy.momentsOfParse other steps second, moment.Calm other) :
    (strategy.momentsOfParse one steps first).map Moment.shape =
        (strategy.momentsOfParse other steps second).map Moment.shape ∧
      (strategy.parse one steps first).shape (·.map Phrase.shape) =
        (strategy.parse other steps second).shape (·.map Phrase.shape) := by
  have hstart : (first.start one).shape = (second.start other).shape := by
    rw [Machine.shape_start, Machine.shape_start, hbare, hshape]
  obtain ⟨hmoments, hrun⟩ := lockstep hbare [] hstart hfirst hsecond
  refine ⟨hmoments, ?_⟩
  simp only [parse, Machine.parse, Run.andThen]
  generalize strategy.run one steps [] (first.start one) = firstOutcome at *
  generalize strategy.run other steps [] (second.start other) = secondOutcome at *
  cases firstOutcome <;> cases secondOutcome <;>
    simp only [Outcome.shape, reduceCtorEq, Outcome.finished.injEq,
      Outcome.faulted.injEq, id] at hrun
  case finished.finished matched firstAfter otherMatched secondAfter =>
    obtain ⟨rfl, hafter⟩ := hrun
    simp only [Machine.shape_conclude, hbare, hafter]
  case faulted.faulted => simp [Outcome.shape, hrun]
  case exhausted.exhausted => rfl

/-- Actions that never fault are calm at every moment. -/
theorem calm_of_total {setting : Setting Value}
    (htotal : ∀ name action, setting.semantics.action? name = some action →
      ∀ phrase, ∃ value, action setting.source phrase = .ok value)
    (moment : Moment Value) : moment.Calm setting := by
  intro cause after hfault
  obtain ⟨phrase, _, _, action, _, haction, herror, _⟩ := hfault.action
  obtain ⟨value, hvalue⟩ := htotal _ action haction
    { phrase with stop := moment.before.position, success := true }
  rw [hvalue] at herror
  contradiction

/-- Two parses of one source with the same tables, whatever drives them, differ in nothing but
the values that their actions yield: each primitive has the same answer and leaves a machine of
the same shape, and so does the parse. -/
theorem actions_do_not_influence_parse (source : Source) (capacity : MemoCapacity)
    (labels : List TableLabel) (strategy : Strategy) (steps : Nat) (first : Semantics First)
    (second : Semantics Second) :
    let one : Setting First := ⟨source, first, capacity⟩
    let other : Setting Second := ⟨source, second, capacity⟩
    (∀ moment ∈ strategy.momentsOfParse one steps (Machine.withTables one labels),
      moment.Calm one) →
    (∀ moment ∈ strategy.momentsOfParse other steps (Machine.withTables other labels),
      moment.Calm other) →
    (strategy.momentsOfParse one steps (Machine.withTables one labels)).map Moment.shape =
        (strategy.momentsOfParse other steps (Machine.withTables other labels)).map
          Moment.shape ∧
      (strategy.parse one steps (Machine.withTables one labels)).shape (·.map Phrase.shape) =
        (strategy.parse other steps (Machine.withTables other labels)).shape
          (·.map Phrase.shape) ∧
      (strategy.parse one steps (Machine.withTables one labels)).events? =
        (strategy.parse other steps (Machine.withTables other labels)).events? := by
  intro one other hfirst hsecond
  have hshape : (Machine.withTables one labels).shape =
      (Machine.withTables other labels).shape := by
    rw [Machine.shape_withTables, Machine.shape_withTables]
    rfl
  have hbare : one.bare = other.bare := rfl
  obtain ⟨hmoments, hparse⟩ := parse_lockstep hbare hshape hfirst hsecond
  refine ⟨hmoments, hparse, ?_⟩
  rw [← Outcome.events?_shape (·.map Phrase.shape), hparse, Outcome.events?_shape]

/-- The letter of one parse has a value, that of the other has none. -/
theorem actions_do_not_influence_parse_letter :
    let strategy : Strategy := fun seen =>
      match seen.length with
      | 0 => .perform (.consult 0 false)
      | 1 => .perform (.next (.character 'a'))
      | 2 => .perform (.close .accept)
      | _ => .answer true
    let labels : List TableLabel := [⟨"letter", "a letter"⟩]
    let one : Setting Nat :=
      ⟨.ofText "a", Semantics.empty.on "letter" fun _ _ => .ok (some 5), ⟨2, by decide⟩⟩
    let other : Setting String := ⟨.ofText "a", .empty, ⟨2, by decide⟩⟩
    let valued := strategy.parse one 5 (Machine.withTables one labels)
    let plain := strategy.parse other 5 (Machine.withTables other labels)
    (valued.FinishesWith fun answer _ => answer.toOption.bind Phrase.value = some 5) ∧
      (plain.FinishesWith fun answer _ => answer.toOption.bind Phrase.value = none) ∧
        valued.shape (·.map Phrase.shape) = plain.shape (·.map Phrase.shape) := by
  intro strategy labels one other valued plain
  refine ⟨by decide +kernel, by decide +kernel, ?_⟩
  have hone : ∀ moment : Moment Nat, moment.Calm one := by
    apply calm_of_total
    intro name action haction phrase
    obtain ⟨_, _, hentries, _⟩ := List.lookup_eq_some_iff.mp haction
    have hentry : (name, action) ∈ one.semantics.actions := by simp [hentries]
    obtain ⟨rfl, rfl⟩ := Prod.mk.inj (List.mem_singleton.mp hentry)
    exact ⟨some 5, rfl⟩
  have hother : ∀ moment : Moment String, moment.Calm other :=
    calm_of_total nofun
  exact (actions_do_not_influence_parse _ _ labels strategy 5 one.semantics other.semantics
    (fun moment _ => hone moment) fun moment _ => hother moment).2.1

end Strategy

end Packrat
