import Packrat.Engine.Closing
import Packrat.Grammar.Expression

/-!
# Attempts

An attempt says what an expression does at a position, whatever phrase is open around
it and whatever the memo tables hold.  Its effect is everything the enclosing phrase
and the cursor get to see of it.  The attempts of a grammar are computed without a
machine; the machine is compared with them elsewhere.
-/

namespace Packrat

/-- The record that remains when further records are joined to it, each at the cursor
given with it. -/
def Failure.mergeAll (failure : Failure) (records : List (Failure × Nat)) : Failure :=
  records.foldl (fun joined record => joined.merge record.1 record.2) failure

@[simp]
theorem Failure.mergeAll_nil (failure : Failure) : failure.mergeAll [] = failure := rfl

theorem Failure.mergeAll_append (failure : Failure)
    (first second : List (Failure × Nat)) :
    failure.mergeAll (first ++ second) = (failure.mergeAll first).mergeAll second := by
  simp only [mergeAll, List.foldl_append]

/-- Recording a label at the cursor is joining the record of that label alone. -/
theorem Failure.record_eq_merge (failure : Failure) (label : String) (cursor : Nat) :
    failure.record label cursor = failure.merge (.single label cursor) cursor := by
  have hahead : ¬ (cursor + 1 ≤ cursor) := by omega
  simp only [record, merge, reach_single, hahead, and_false, if_false]
  rfl

/-- A moment outside the arguments of predicates: where the cursor is, and the label
of what has just failed there. -/
structure Visit where
  position : Nat
  failed : Option String
deriving DecidableEq

structure Effect (Value : Type) where
  matched : Bool
  /-- Where the cursor is left. -/
  stop : Nat
  /-- The end of the last part that was handed over. -/
  last : Option Nat
  parts : List (Phrase Value)
  /-- The records handed over, each with the cursor at which it is joined. -/
  records : List (Failure × Nat)
  visits : List Visit

namespace Effect

variable {Value : Type}

def still (matched : Bool) (position : Nat) : Effect Value :=
  ⟨matched, position, none, [], [], []⟩

/-- A condition on the text that holds. -/
def passing (position : Nat) : Effect Value :=
  ⟨true, position, none, [], [], [⟨position, none⟩]⟩

def failing (label : String) (position : Nat) : Effect Value :=
  ⟨false, position, none, [], [(.single label position, position)],
    [⟨position, some label⟩]⟩

/-- Characters that become a part of their own. -/
def taking (start stop : Nat) : Effect Value :=
  ⟨true, stop, some stop, [.ofTerminal start stop], [], [⟨stop, none⟩]⟩

def followedBy (first second : Effect Value) : Effect Value :=
  ⟨second.matched, second.stop, second.last <|> first.last, first.parts ++ second.parts,
    first.records ++ second.records, first.visits ++ second.visits⟩

/-- What becomes of the phrase around it. -/
def applyTo (effect : Effect Value) (phrase : Phrase Value) : Phrase Value :=
  { phrase with
    stop := effect.last.getD phrase.stop
    children := phrase.children ++ effect.parts
    failure := phrase.failure.mergeAll effect.records }

/-- The effect of a closed phrase on the phrase around it. -/
def ofPart (use : PhraseUse) (part : Phrase Value) (visits : List Visit) : Effect Value :=
  if part.success then
    match use with
    | .rule =>
        ⟨true, part.stop, some part.stop, [part], [(part.failure, part.stop)], visits⟩
    | .inner =>
        ⟨true, part.stop, some part.stop, part.children, [(part.failure, part.stop)], visits⟩
    | .predicate => ⟨true, part.stop, none, [], [], visits⟩
  else ⟨false, part.stop, none, [], [(part.failure, part.stop)], visits⟩

@[simp]
theorem applyTo_still (matched : Bool) (position : Nat) (phrase : Phrase Value) :
    (still matched position : Effect Value).applyTo phrase = phrase := by
  cases phrase
  simp [still, applyTo]

@[simp]
theorem applyTo_passing (position : Nat) (phrase : Phrase Value) :
    (passing position : Effect Value).applyTo phrase = phrase := by
  cases phrase
  simp [passing, applyTo]

theorem applyTo_failing (label : String) (position : Nat) (phrase : Phrase Value) :
    (failing label position : Effect Value).applyTo phrase =
      { phrase with failure := phrase.failure.record label position } := by
  simp [failing, applyTo, Failure.mergeAll, Failure.record_eq_merge]

theorem applyTo_taking (start stop : Nat) (phrase : Phrase Value) :
    (taking start stop : Effect Value).applyTo phrase =
      { phrase with
        stop := stop, children := phrase.children ++ [.ofTerminal start stop] } := by
  simp [taking, applyTo]

theorem applyTo_followedBy (first second : Effect Value) (phrase : Phrase Value) :
    (first.followedBy second).applyTo phrase = second.applyTo (first.applyTo phrase) := by
  cases hlast : second.last <;>
    simp [applyTo, followedBy, Failure.mergeAll_append, hlast]

@[simp]
theorem matched_ofPart (use : PhraseUse) (part : Phrase Value) (visits : List Visit) :
    (ofPart use part visits).matched = part.success := by
  cases hsuccess : part.success <;> cases use <;> simp [ofPart, hsuccess]

@[simp]
theorem stop_ofPart (use : PhraseUse) (part : Phrase Value) (visits : List Visit) :
    (ofPart use part visits).stop = part.stop := by
  cases hsuccess : part.success <;> cases use <;> simp [ofPart, hsuccess]

@[simp]
theorem visits_ofPart (use : PhraseUse) (part : Phrase Value) (visits : List Visit) :
    (ofPart use part visits).visits = visits := by
  cases hsuccess : part.success <;> cases use <;> simp [ofPart, hsuccess]

/-- A closed phrase affects the phrase around it as if it were absorbed at its end. -/
theorem applyTo_ofPart (use : PhraseUse) (part : Phrase Value) (visits : List Visit) :
    (ofPart use part visits).applyTo = fun phrase => phrase.absorb use part part.stop := by
  funext phrase
  cases phrase
  cases hsuccess : part.success <;> cases use <;>
    simp [ofPart, applyTo, Phrase.absorb, Phrase.attach, Phrase.splice,
      Phrase.inheritFailure, Failure.mergeAll, hsuccess]

end Effect

/-- Why an attempt has no effect. -/
inductive Halt where
  | exhausted
  | faulted (fault : Fault) (position : Nat)
deriving DecidableEq

abbrev Attempt (Value : Type) := Nat → Except Halt (Effect Value)

/-- The four kinds of expressions that open a phrase of their own. -/
inductive Enclosure where
  | rule
  | sequence
  | andPredicate
  | notPredicate
deriving DecidableEq

namespace Enclosure

def use : Enclosure → PhraseUse
  | .rule => .rule
  | .sequence => .inner
  | .andPredicate | .notPredicate => .predicate

/-- How the phrase is closed, as the body turns out. -/
def closing : Enclosure → Bool → Closing
  | .rule, matched => if matched then .accept else .reject
  | .sequence, matched => if matched then .acceptInner else .rejectInner
  | .andPredicate, matched => if matched then .acceptAnd else .rejectAnd
  | .notPredicate, matched => if matched then .rejectNot else .acceptNot

@[simp]
theorem use_closing (enclosure : Enclosure) (matched : Bool) :
    (enclosure.closing matched).use = enclosure.use := by
  cases enclosure <;> cases matched <;> rfl

/-- Only a successful part that is no condition is consumed. -/
theorem consumes_closing (enclosure : Enclosure) (matched : Bool) :
    (enclosure.closing matched).consumes =
      ((enclosure.closing matched).succeeds && enclosure.use != .predicate) := by
  cases enclosure <;> cases matched <;> rfl

end Enclosure

/-- Where the cursor is left by a closed phrase that was opened at `start`. -/
def Phrase.landing {Value : Type} (use : PhraseUse) (start : Nat) (part : Phrase Value) :
    Nat :=
  if part.success && use != .predicate then part.stop else start

namespace Closing

/-- The label under which a failing predicate is reported. -/
def reported (closing : Closing) (diagnosis : String) : Option String :=
  match closing with
  | .rejectAnd => some diagnosis
  | .rejectNot => some (Terminal.negationMark ++ diagnosis)
  | _ => none

variable {Value : Type}

/-- The value of a phrase that is closed at the cursor. -/
def value? (closing : Closing) (source : Source) (semantics : Semantics Value)
    (cursor : Nat) (phrase : Phrase Value) : Except Fault (Option Value) :=
  match closing with
  | .accept =>
      match semantics.action? phrase.name with
      | none => .ok phrase.value
      | some action =>
          match action source { phrase with stop := cursor, success := true } with
          | .ok value => .ok (value <|> phrase.value)
          | .error fault => .error fault
  | _ => .ok phrase.value

/-- The phrase that is left when an open phrase is closed at the cursor, unless its
action faults. -/
def settled? (closing : Closing) (source : Source) (semantics : Semantics Value)
    (cursor : Nat) (phrase : Phrase Value) : Except Fault (Phrase Value) :=
  match closing.value? source semantics cursor phrase with
  | .ok value => .ok { closing.settle cursor phrase with value := value }
  | .error fault => .error fault

/-- An action decides about the value of a closed phrase and about nothing else. -/
theorem eq_of_settled? {closing : Closing} {source : Source} {semantics : Semantics Value}
    {cursor : Nat} {phrase part : Phrase Value}
    (hpart : closing.settled? source semantics cursor phrase = .ok part) :
    part = { closing.settle cursor phrase with value := part.value } := by
  simp only [settled?] at hpart
  cases hvalue : closing.value? source semantics cursor phrase with
  | error fault => simp [hvalue] at hpart
  | ok value =>
      simp only [hvalue, Except.ok.injEq] at hpart
      rw [← hpart]

theorem success_of_settled? {closing : Closing} {source : Source}
    {semantics : Semantics Value} {cursor : Nat} {phrase part : Phrase Value}
    (hpart : closing.settled? source semantics cursor phrase = .ok part) :
    part.success = closing.succeeds :=
  congrArg Phrase.success (eq_of_settled? hpart)

theorem stop_of_settled? {closing : Closing} {source : Source}
    {semantics : Semantics Value} {cursor : Nat} {phrase part : Phrase Value}
    (hpart : closing.settled? source semantics cursor phrase = .ok part) :
    part.stop = if closing.consumes then cursor else phrase.start :=
  congrArg Phrase.stop (eq_of_settled? hpart)

/-- A closed phrase ends where it leaves the cursor. -/
theorem landing_of_settled? {closing : Closing} {source : Source}
    {semantics : Semantics Value} {cursor : Nat} {phrase part : Phrase Value}
    (hpart : closing.settled? source semantics cursor phrase = .ok part) :
    part.landing closing.use phrase.start = part.stop := by
  rw [Phrase.landing, success_of_settled? hpart, stop_of_settled? hpart]
  cases closing <;> simp [consumes, succeeds, use]

/-- A phrase has a value unless it is accepted and its action faults. -/
theorem exists_settled {closing : Closing} {source : Source}
    {semantics : Semantics Value} {cursor : Nat} {phrase : Phrase Value}
    (haction : closing = .accept → ∀ action, semantics.action? phrase.name = some action →
      ∃ value, action source { phrase with stop := cursor, success := true } = .ok value) :
    ∃ part, closing.settled? source semantics cursor phrase = .ok part := by
  cases closing with
  | accept =>
      simp only [settled?, value?]
      cases hfound : semantics.action? phrase.name with
      | none => exact ⟨_, rfl⟩
      | some action =>
          obtain ⟨value, hvalue⟩ := haction rfl action hfound
          simp only [hvalue]
          exact ⟨_, rfl⟩
  | _ => exact ⟨_, rfl⟩

end Closing

namespace Enclosure

variable {Value : Type}

/-- The closed phrase around a body with a known effect. -/
def part? (enclosure : Enclosure) (source : Source) (semantics : Semantics Value)
    (label : TableLabel) (start : Nat) (body : Effect Value) :
    Except Fault (Phrase Value) :=
  (enclosure.closing body.matched).settled? source semantics body.stop
    (body.applyTo (.opened label.name label.diagnosis start))

theorem landing_of_part? {enclosure : Enclosure} {source : Source}
    {semantics : Semantics Value} {label : TableLabel} {start : Nat} {body : Effect Value}
    {part : Phrase Value}
    (hpart : enclosure.part? source semantics label start body = .ok part) :
    part.landing enclosure.use start = part.stop := by
  rw [← enclosure.use_closing body.matched]
  exact Closing.landing_of_settled? hpart

/-- What is seen of a phrase outside the arguments of predicates.  Of a predicate that
is its two ends. -/
def visits (enclosure : Enclosure) (label : TableLabel) (start : Nat)
    (body : Effect Value) (part : Phrase Value) : List Visit :=
  let closed := ⟨part.stop, (enclosure.closing body.matched).reported label.diagnosis⟩
  ⟨start, none⟩ ::
    ((if enclosure.use = .predicate then [] else body.visits) ++ [closed])

end Enclosure

namespace Attempt

variable {Value : Type}

def done (matched : Bool) : Attempt Value :=
  fun position => .ok (.still matched position)

def fault (fault : Fault) : Attempt Value :=
  fun position => .error (.faulted fault position)

def exhausted : Attempt Value :=
  fun _ => .error .exhausted

def andThen (attempt : Attempt Value) (next : Bool → Attempt Value) : Attempt Value :=
  fun position =>
    match attempt position with
    | .error halt => .error halt
    | .ok first =>
        match next first.matched first.stop with
        | .error halt => .error halt
        | .ok second => .ok (first.followedBy second)

def all : List (Attempt Value) → Attempt Value
  | [] => done true
  | attempt :: rest =>
      attempt.andThen fun matched => if matched then all rest else done false

def any : List (Attempt Value) → Attempt Value
  | [] => done false
  | attempt :: rest =>
      attempt.andThen fun matched => if matched then done true else any rest

/-- Goes on after a repetition has matched once more, unless it took nothing. -/
def ifAdvanced (start : Nat) (again : Attempt Value) : Attempt Value :=
  fun position => if position = start then done true position else again position

/-- One round of a repetition, which always matches in the end. -/
def round (body again : Attempt Value) : Attempt Value :=
  fun start =>
    body.andThen (fun matched => if matched then ifAdvanced start again else done true) start

def ahead (source : Source) (terminal : Terminal) : Attempt Value :=
  fun position =>
    match terminal.matchLength? source position with
    | some _ => .ok (.passing position)
    | none => .ok (.failing terminal.label position)

def aheadNot (source : Source) (terminal : Terminal) : Attempt Value :=
  fun position =>
    match terminal.matchLength? source position with
    | some _ => .ok (.failing terminal.negate.label position)
    | none => .ok (.passing position)

def next (source : Source) (terminal : Terminal) : Attempt Value :=
  if terminal = .endOfText then ahead source terminal
  else fun position =>
    match terminal.matchLength? source position with
    | some length => .ok (.taking position (position + length))
    | none => .ok (.failing terminal.label position)

/-- The effect of a body together with the closed phrase around it. -/
def closed (source : Source) (semantics : Semantics Value) (enclosure : Enclosure)
    (label : TableLabel) (body : Attempt Value) (position : Nat) :
    Except Halt (Effect Value × Phrase Value) :=
  match body position with
  | .error halt => .error halt
  | .ok inside =>
      match enclosure.part? source semantics label position inside with
      | .error fault => .error (.faulted fault inside.stop)
      | .ok part => .ok (inside, part)

variable (source : Source) (terminal : Terminal) (position : Nat)

theorem ahead_eq_ok :
    (ahead source terminal : Attempt Value) position =
      .ok (match terminal.matchLength? source position with
        | some _ => .passing position
        | none => .failing terminal.label position) := by
  rw [ahead]
  cases terminal.matchLength? source position <;> rfl

theorem aheadNot_eq_ok :
    (aheadNot source terminal : Attempt Value) position =
      .ok (match terminal.matchLength? source position with
        | some _ => .failing terminal.negate.label position
        | none => .passing position) := by
  rw [aheadNot]
  cases terminal.matchLength? source position <;> rfl

/-- Only the end of the text is matched without becoming a part. -/
theorem next_eq_ok :
    (next source terminal : Attempt Value) position =
      .ok (match terminal.matchLength? source position with
        | some length =>
            if terminal = .endOfText then .passing position
            else .taking position (position + length)
        | none => .failing terminal.label position) := by
  rw [next]
  by_cases hend : terminal = .endOfText
  · rw [if_pos hend, ahead_eq_ok]
    cases terminal.matchLength? source position <;> simp [hend]
  · rw [if_neg hend]
    cases terminal.matchLength? source position <;> simp [hend]

variable {source terminal position}

theorem andThen_eq_ok_iff {attempt : Attempt Value} {next : Bool → Attempt Value}
    {position : Nat} {effect : Effect Value} :
    attempt.andThen next position = .ok effect ↔
      ∃ first second, attempt position = .ok first ∧
        next first.matched first.stop = .ok second ∧ effect = first.followedBy second := by
  simp only [andThen]
  cases attempt position with
  | error halt => simp
  | ok first =>
      cases hnext : next first.matched first.stop with
      | error halt => simp [hnext]
      | ok second => simp [hnext, eq_comm]

/-- A round of a repetition ends it unless its body has matched and advanced. -/
theorem round_eq_ok_iff {body again : Attempt Value} {start : Nat} {effect : Effect Value} :
    round body again start = .ok effect ↔
      ∃ first second, body start = .ok first ∧ effect = first.followedBy second ∧
        if first.matched = true ∧ first.stop ≠ start then again first.stop = .ok second
        else second = .still true first.stop := by
  rw [round, andThen_eq_ok_iff]
  apply exists_congr
  intro first
  apply exists_congr
  intro second
  cases hmatched : first.matched with
  | false => simp [done, eq_comm, and_comm]
  | true =>
      by_cases hstill : first.stop = start
      · simp [ifAdvanced, done, hstill, eq_comm, and_comm]
      · simp [ifAdvanced, hstill, and_comm]

theorem closed_eq_ok_iff {source : Source} {semantics : Semantics Value}
    {enclosure : Enclosure} {label : TableLabel} {body : Attempt Value} {position : Nat}
    {inside : Effect Value} {part : Phrase Value} :
    closed source semantics enclosure label body position = .ok (inside, part) ↔
      body position = .ok inside ∧
        enclosure.part? source semantics label position inside = .ok part := by
  simp only [closed]
  cases body position with
  | error halt => simp
  | ok effect =>
      cases hpart : enclosure.part? source semantics label position effect with
      | error fault => grind
      | ok settled => grind

/-- Attempts a body inside a phrase of its own.  Without a label there is no memo table
to open the phrase with. -/
def within (source : Source) (semantics : Semantics Value) (enclosure : Enclosure)
    (label? : Option TableLabel) (body : Attempt Value) : Attempt Value :=
  fun position =>
    match label? with
    | none => fault .outOfRange position
    | some label =>
        match closed source semantics enclosure label body position with
        | .error halt => .error halt
        | .ok (inside, part) =>
            .ok (.ofPart enclosure.use part (enclosure.visits label position inside part))

theorem within_eq_ok_iff {source : Source} {semantics : Semantics Value}
    {enclosure : Enclosure} {label? : Option TableLabel} {body : Attempt Value}
    {position : Nat} {effect : Effect Value} :
    within source semantics enclosure label? body position = .ok effect ↔
      ∃ label inside part, label? = some label ∧ body position = .ok inside ∧
        enclosure.part? source semantics label position inside = .ok part ∧
          effect = .ofPart enclosure.use part
            (enclosure.visits label position inside part) := by
  cases label? with
  | none => simp [within, fault]
  | some label =>
      simp only [within]
      cases hclosed : closed source semantics enclosure label body position with
      | error halt =>
          constructor
          · simp
          · rintro ⟨_, inside, part, hlabel, hinside, hpart, _⟩
            obtain rfl := Option.some.inj hlabel
            rw [closed_eq_ok_iff.mpr ⟨hinside, hpart⟩] at hclosed
            contradiction
      | ok pair =>
          obtain ⟨inside, part⟩ := pair
          obtain ⟨hinside, hpart⟩ := closed_eq_ok_iff.mp hclosed
          constructor
          · intro heffect
            exact ⟨label, inside, part, rfl, hinside, hpart, (Except.ok.inj heffect).symm⟩
          · rintro ⟨_, other, otherPart, hlabel, hother, hotherPart, rfl⟩
            obtain rfl := Option.some.inj hlabel
            obtain rfl := Except.ok.inj (hinside.symm.trans hother)
            obtain rfl := Except.ok.inj (hpart.symm.trans hotherPart)
            rfl

end Attempt

namespace Grammar

variable {Value : Type}

/-- The name and the diagnosis of the phrases that a rule opens. -/
def ruleLabel? (grammar : Grammar) (rule : Rule) : Option TableLabel :=
  match rule.table with
  | none => some ⟨rule.name, rule.diagnosis⟩
  | some table => grammar.tables[table]?

def innerLabel? (grammar : Grammar) (opening : Opening) : Option TableLabel :=
  match opening with
  | .plain diagnosis => some ⟨"", diagnosis⟩
  | .memoized table => grammar.tables[table]?.map fun label => ⟨"", label.diagnosis⟩

/-- What an expression does within a number of nested steps. -/
def attempt (grammar : Grammar) (source : Source) (semantics : Semantics Value) :
    Nat → Expression → Attempt Value
  | 0, _ => .exhausted
  | _ + 1, .terminal terminal => .next source terminal
  | _ + 1, .ahead terminal => .ahead source terminal
  | _ + 1, .aheadNot terminal => .aheadNot source terminal
  | steps + 1, .rule name =>
      match grammar.rule? name with
      | none => .fault .outOfRange
      | some rule =>
          .within source semantics .rule (grammar.ruleLabel? rule)
            (.all (rule.body.map (attempt grammar source semantics steps)))
  | steps + 1, .choice alternatives =>
      .any (alternatives.map (attempt grammar source semantics steps))
  | steps + 1, .optional body =>
      (attempt grammar source semantics steps body).andThen fun _ => .done true
  | steps + 1, .star body =>
      .round (attempt grammar source semantics steps body)
        (attempt grammar source semantics steps (.star body))
  | steps + 1, .plus body =>
      (attempt grammar source semantics steps body).andThen fun matched =>
        if matched then attempt grammar source semantics steps (.star body)
        else .done false
  | steps + 1, .sequence opening parts =>
      .within source semantics .sequence (grammar.innerLabel? opening)
        (.all (parts.map (attempt grammar source semantics steps)))
  | steps + 1, .andPredicate opening argument =>
      .within source semantics .andPredicate (grammar.innerLabel? opening)
        (attempt grammar source semantics steps argument)
  | steps + 1, .notPredicate opening argument =>
      .within source semantics .notPredicate (grammar.innerLabel? opening)
        (attempt grammar source semantics steps argument)

end Grammar

end Packrat
