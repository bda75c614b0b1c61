import Mathlib.Data.Finset.Card
import Mathlib.Data.Finset.Dedup
import Packrat.Proofs.Books

/-!
# Agreement of the trace, the counters and the stack

Read as brackets, the events of opened and closed phrases are nested, and those that are still
to be closed are the phrases on the stack.  The counters of a rule count these events.
-/

namespace Packrat

variable {Value : Type} {setting : Setting Value}

/-! ## Reading events as brackets -/

namespace Event

/-- The brackets that are still to be closed after an event, innermost first.  A phrase that is
closed must be the one opened last, and if it has failed it must end where it starts. -/
def bracketsAfter? (unclosed : List Bracket) : Event → Option (List Bracket)
  | .opened title inner start => some (⟨title, inner, start⟩ :: unclosed)
  | .closed title inner start stop success =>
      match unclosed with
      | [] => none
      | bracket :: outer =>
          if bracket = ⟨title, inner, start⟩ ∧ (success = false → stop = start) then some outer
          else none
  | _ => some unclosed

/-- The brackets that are still to be closed after all events, if the events are nested. -/
def unclosed? (events : List Event) : Option (List Bracket) :=
  events.foldlM bracketsAfter? []

/-- Where the event has the body of a named rule entered. -/
def entrance? (name : String) : Event → Option Nat
  | .opened title false start => if title = name then some start else none
  | _ => none

/-- The positions at which the body of a named rule was entered, in order. -/
def entrances (name : String) (events : List Event) : List Nat :=
  events.filterMap (entrance? name)

/-- A phrase of a named rule is closed, as succeeded or as failed. -/
def closes (name : String) (success : Bool) : Event → Bool
  | .closed title inner _ _ matched => !inner && title == name && matched == success
  | _ => false

@[simp]
theorem entrances_opened (name title : String) (inner : Bool) (start : Nat) :
    entrances name [.opened title inner start] =
      if inner = false ∧ title = name then [start] else [] := by
  cases inner <;> by_cases htitle : title = name <;> simp [entrances, entrance?, htitle]

@[simp]
theorem entrances_append (name : String) (earlier later : List Event) :
    entrances name (earlier ++ later) = entrances name earlier ++ entrances name later :=
  List.filterMap_append

theorem unclosed?_append (earlier later : List Event) :
    unclosed? (earlier ++ later) = (unclosed? earlier).bind (later.foldlM bracketsAfter?) :=
  List.foldlM_append

/-- Other events do not count as brackets. -/
theorem unclosed?_filter (events : List Event) :
    unclosed? (events.filter isBracket) = unclosed? events := by
  have hskip : (fun unclosed event =>
      if isBracket event then bracketsAfter? unclosed event else pure unclosed) =
        bracketsAfter? := by
    funext unclosed event
    cases event <;> rfl
  rw [unclosed?, List.foldlM_filter, hskip, unclosed?]

theorem entrances_filter (name : String) (events : List Event) :
    entrances name (events.filter isBracket) = entrances name events := by
  have hskip : (fun event => if isBracket event then entrance? name event else none) =
      entrance? name := by
    funext event
    cases event <;> rfl
  rw [entrances, List.filterMap_filter, hskip, entrances]

theorem countP_closes_filter (name : String) (success : Bool) (events : List Event) :
    (events.filter isBracket).countP (closes name success) =
      events.countP (closes name success) := by
  rw [List.countP_filter]
  congr 1
  funext event
  cases event <;> simp [closes, isBracket]

end Event

def Bracket.isOf (name : String) (bracket : Bracket) : Bool :=
  !bracket.inner && bracket.title == name

theorem Bracket.isOf_of {name : String} (hname : name ≠ "") (title diagnosis : String)
    (start : Nat) : (Bracket.of title diagnosis start).isOf name = (title == name) := by
  cases htitle : title.isEmpty with
  | true =>
      have hother : title ≠ name := by
        rintro rfl
        exact hname (String.isEmpty_iff.mp htitle)
      simp [of, isOf, htitle, hother]
  | false => simp [of, isOf, htitle]

/-- Whatever an event opens it closes or leaves open. -/
theorem Event.count_of_bracketsAfter? (name : String) {event : Event}
    {before after : List Bracket} (hevent : bracketsAfter? before event = some after) :
    (entrances name [event]).length + before.countP (·.isOf name) =
      [event].countP (closes name true) + [event].countP (closes name false) +
        after.countP (·.isOf name) := by
  cases event with
  | opened title inner start =>
      obtain rfl := Option.some.inj hevent
      cases inner <;> by_cases htitle : title = name <;>
        simp [closes, Bracket.isOf, htitle, Nat.add_comm]
  | closed title inner start stop success =>
      simp only [bracketsAfter?] at hevent
      split at hevent
      · contradiction
      · next bracket outer =>
          split at hevent
          · next hmatches =>
              obtain rfl := Option.some.inj hevent
              rw [hmatches.1]
              cases inner <;> cases success <;> by_cases htitle : title = name <;>
                simp [entrances, entrance?, closes, Bracket.isOf, htitle, Nat.add_comm]
          · contradiction
  | _ =>
      obtain rfl := Option.some.inj hevent
      simp [entrances, entrance?, closes]

/-- Wherever events are nested, a rule was entered as often as it was closed or is open. -/
theorem Event.length_entrances {name : String} {events : List Event} {unclosed : List Bracket}
    (hnested : unclosed? events = some unclosed) :
    (entrances name events).length =
      events.countP (closes name true) + events.countP (closes name false) +
        unclosed.countP (·.isOf name) := by
  induction events using List.reverseRecOn generalizing unclosed with
  | nil =>
      obtain rfl := Option.some.inj hnested
      rfl
  | append_singleton events event ih =>
      rw [unclosed?_append] at hnested
      obtain ⟨before, hbefore, hevent⟩ := Option.bind_eq_some_iff.mp hnested
      have hafter : bracketsAfter? before event = some unclosed := by simpa using hevent
      have hcount := count_of_bracketsAfter? name hafter
      have hearlier := ih hbefore
      rw [entrances_append, List.length_append, List.countP_append, List.countP_append]
      omega

/-! ## The counters of a rule -/

namespace Books

/-- The counters of a rule are what can be counted in the events. -/
structure Tallies (books : Books) (name : String) : Prop where
  calls_eq : (books.counters.rule name).calls = (Event.entrances name books.brackets).length
  succeeded_eq :
    (books.counters.rule name).succeeded = books.brackets.countP (Event.closes name true)
  failed_eq :
    (books.counters.rule name).failed = books.brackets.countP (Event.closes name false)
  visited_iff : ∀ start,
    (name, start) ∈ books.counters.visited ↔ start ∈ Event.entrances name books.brackets
  rescanned_add :
    (books.counters.rule name).rescanned + (Event.entrances name books.brackets).toFinset.card =
      (Event.entrances name books.brackets).length

variable {books : Books} {name : String}

theorem tallies_empty (name : String) : Tallies ⟨.zero, [], []⟩ name := by
  constructor <;> simp [Event.entrances, Counters.zero, Counters.rule, RuleCounters.zero]

/-- A position that is visited again is not a new one. -/
theorem card_toFinset_concat (positions : List Nat) (position : Nat) :
    (positions ++ [position]).toFinset.card + (if position ∈ positions then 1 else 0) =
      positions.toFinset.card + 1 := by
  have hinsert : (positions ++ [position]).toFinset = insert position positions.toFinset := by
    ext other
    simp
  rw [hinsert]
  split
  · next hmember => rw [Finset.insert_eq_of_mem (List.mem_toFinset.mpr hmember)]
  · next hfresh =>
      rw [Finset.card_insert_of_notMem (fun hmember => hfresh (List.mem_toFinset.mp hmember))]

/-- The phrase of a named rule is entered by its name, and no other one is. -/
theorem entrances_of (hname : name ≠ "") (title diagnosis : String) (start : Nat) :
    Event.entrances name
        [.opened (Bracket.of title diagnosis start).title
          (Bracket.of title diagnosis start).inner start] =
      if title = name then [start] else [] := by
  cases htitle : title.isEmpty with
  | true =>
      have hother : title ≠ name := by
        rintro rfl
        exact hname (String.isEmpty_iff.mp htitle)
      simp [Bracket.of, htitle, hother]
  | false => simp [Bracket.of, htitle]

theorem rule_post_opened (books : Books) (hname : name ≠ "") (title diagnosis : String)
    (start : Nat) :
    (books.post (.opened title diagnosis start)).counters.rule name =
      if title = name then
        { books.counters.rule name with
          calls := (books.counters.rule name).calls + 1
          rescanned := (books.counters.rule name).rescanned +
            if (title, start) ∈ books.counters.visited then 1 else 0 }
      else books.counters.rule name := by
  rw [← Counters.rule_enter]
  exact Counters.rule_ite_isEmpty hname fun hother => by rw [Counters.rule_enter, if_neg hother]

theorem mem_visited_post_opened (hname : name ≠ "") (title diagnosis : String)
    (start position : Nat) :
    (name, position) ∈ (books.post (.opened title diagnosis start)).counters.visited ↔
      title = name ∧ position = start ∨ (name, position) ∈ books.counters.visited := by
  simp only [post]
  split
  · next hempty =>
      have hother : title ≠ name := by
        rintro rfl
        exact hname (String.isEmpty_iff.mp hempty)
      simp [hother]
  · rw [Counters.mem_visited_enter, Prod.mk.injEq, eq_comm]

theorem Tallies.opened (htallies : books.Tallies name) (hname : name ≠ "")
    (title diagnosis : String) (start : Nat) :
    (books.post (.opened title diagnosis start)).Tallies name := by
  have hrule := books.rule_post_opened hname title diagnosis start
  have hbrackets : Event.entrances name
      (books.post (.opened title diagnosis start)).brackets =
        Event.entrances name books.brackets ++ if title = name then [start] else [] := by
    rw [← entrances_of hname title diagnosis start]
    exact Event.entrances_append _ _ _
  have hcloses : ∀ success,
      (books.post (.opened title diagnosis start)).brackets.countP (Event.closes name success) =
        books.brackets.countP (Event.closes name success) := by
    intro success
    simp [post, List.countP_append, Event.closes]
  by_cases htitle : title = name
  · rw [if_pos htitle] at hrule hbrackets
    constructor
    · rw [hrule, hbrackets, List.length_append, ← htallies.calls_eq]
      rfl
    · rw [hrule, hcloses]
      exact htallies.succeeded_eq
    · rw [hrule, hcloses]
      exact htallies.failed_eq
    · intro position
      rw [mem_visited_post_opened hname, hbrackets, htallies.visited_iff]
      simp [htitle, or_comm]
    · have hagain : ((title, start) ∈ books.counters.visited) =
          (start ∈ Event.entrances name books.brackets) := by
        rw [htitle, htallies.visited_iff]
      have hcard := card_toFinset_concat (Event.entrances name books.brackets) start
      have hrescanned := htallies.rescanned_add
      rw [hrule, hbrackets, List.length_append, List.length_singleton]
      simp only [hagain]
      omega
  · rw [if_neg htitle] at hrule hbrackets
    rw [List.append_nil] at hbrackets
    refine ⟨?_, ?_, ?_, fun position => ?_, ?_⟩
    · rw [hrule, hbrackets, htallies.calls_eq]
    · rw [hrule, hcloses, htallies.succeeded_eq]
    · rw [hrule, hcloses, htallies.failed_eq]
    · rw [mem_visited_post_opened hname, hbrackets, htallies.visited_iff]
      simp [htitle]
    · rw [hrule, hbrackets, htallies.rescanned_add]

theorem Tallies.closed (htallies : books.Tallies name) (closing : Closing) (cursor : Nat) :
    (books.post (.closed closing cursor)).Tallies name := by
  cases hunclosed : books.unclosed with
  | nil =>
      have hpost : books.post (.closed closing cursor) = books := by
        simp only [post, hunclosed]
      rwa [hpost]
  | cons bracket outer =>
      obtain ⟨title, inner, start⟩ := bracket
      let event : Event := .closed title inner start
        (if closing.consumes then cursor else start) closing.succeeds
      have hpost : books.post (.closed closing cursor) =
          ⟨if inner then books.counters else books.counters.finish title closing.succeeds,
            books.brackets ++ [event], outer⟩ := by
        simp only [post, hunclosed]
        rfl
      have hentrances : Event.entrances name (books.brackets ++ [event]) =
          Event.entrances name books.brackets := by
        rw [Event.entrances_append]
        exact List.append_nil _
      have hvisited : (if inner then books.counters
          else books.counters.finish title closing.succeeds).visited =
            books.counters.visited := by
        split <;> rfl
      have hrule : (if inner then books.counters
          else books.counters.finish title closing.succeeds).rule name =
            { books.counters.rule name with
              succeeded := (books.counters.rule name).succeeded +
                [event].countP (Event.closes name true)
              failed := (books.counters.rule name).failed +
                [event].countP (Event.closes name false) } := by
        cases inner with
        | true => simp [event, Event.closes]
        | false =>
            simp only [Bool.false_eq_true, if_false, Counters.rule_finish, event]
            cases closing.succeeds <;> by_cases htitle : title = name <;>
              simp [Event.closes, htitle]
      rw [hpost]
      constructor
      · rw [hrule, hentrances, ← htallies.calls_eq]
      · rw [hrule, List.countP_append, ← htallies.succeeded_eq]
      · rw [hrule, List.countP_append, ← htallies.failed_eq]
      · intro position
        rw [hvisited, hentrances, htallies.visited_iff]
      · rw [hrule, hentrances, htallies.rescanned_add]

theorem rule_post_reused (books : Books) (hname : name ≠ "") (title : String) :
    (books.post (.reused title)).counters.rule name =
      if title = name then
        { books.counters.rule name with reused := (books.counters.rule name).reused + 1 }
      else books.counters.rule name := by
  rw [← Counters.rule_reuse]
  exact Counters.rule_ite_isEmpty hname fun hother => by rw [Counters.rule_reuse, if_neg hother]

theorem visited_post_reused (title : String) :
    (books.post (.reused title)).counters.visited = books.counters.visited := by
  simp only [post]
  split <;> rfl

theorem Tallies.reused (htallies : books.Tallies name) (hname : name ≠ "") (title : String) :
    (books.post (.reused title)).Tallies name := by
  have hrule := books.rule_post_reused hname title
  refine ⟨?_, ?_, ?_, fun position => ?_, ?_⟩
  · rw [hrule]
    split <;> exact htallies.calls_eq
  · rw [hrule]
    split <;> exact htallies.succeeded_eq
  · rw [hrule]
    split <;> exact htallies.failed_eq
  · rw [visited_post_reused]
    exact htallies.visited_iff position
  · rw [hrule]
    split <;> exact htallies.rescanned_add

theorem Tallies.post (htallies : books.Tallies name) (hname : name ≠ "") (posting : Posting) :
    (books.post posting).Tallies name := by
  cases posting with
  | opened title diagnosis start => exact htallies.opened hname title diagnosis start
  | closed closing cursor => exact htallies.closed closing cursor
  | reused title => exact htallies.reused hname title
  | nothing => exact htallies

/-- Neither the counters of the tables nor the phrases still to be closed are part of it. -/
theorem Tallies.replace (htallies : books.Tallies name)
    (tables : List (String × TableCounters)) (unclosed : List Bracket) :
    Tallies ⟨{ books.counters with tables := tables }, books.brackets, unclosed⟩ name :=
  ⟨htallies.calls_eq, htallies.succeeded_eq, htallies.failed_eq, htallies.visited_iff,
    htallies.rescanned_add⟩

/-! ## Brackets on the stack -/

/-- The brackets that are still to be closed are the phrases on the stack. -/
def Nested (books : Books) : Prop :=
  Event.unclosed? books.brackets = some books.unclosed

theorem Nested.concat (hnested : books.Nested) {event : Event} {after : List Bracket}
    (hevent : Event.bracketsAfter? books.unclosed event = some after) (counters : Counters) :
    Nested ⟨counters, books.brackets ++ [event], after⟩ := by
  have hbefore : Event.unclosed? books.brackets = some books.unclosed := hnested
  rw [Nested, Event.unclosed?_append, hbefore]
  simpa using hevent

/-- A phrase that has failed ends where it starts. -/
theorem Nested.post (hnested : books.Nested) (posting : Posting) :
    (books.post posting).Nested := by
  cases posting with
  | opened title diagnosis start => exact hnested.concat rfl _
  | closed closing cursor =>
      cases hunclosed : books.unclosed with
      | nil => simpa only [Books.post, hunclosed] using hnested
      | cons bracket outer =>
          simp only [Books.post, hunclosed]
          refine hnested.concat ?_ _
          have hfailed : closing.succeeds = false → closing.consumes = false := by
            cases closing <;> simp [Closing.succeeds, Closing.consumes]
          rw [hunclosed]
          refine if_pos ⟨rfl, fun hclosing => ?_⟩
          rw [hfailed hclosing, if_neg Bool.false_ne_true]
  | reused title => exact hnested
  | nothing => exact hnested

end Books

/-! ## Histories -/

/-- Nobody but the machine writes events. -/
def Deed.isSilent : Deed Value → Bool
  | .note entry => entry.event?.isNone
  | _ => true

namespace Machine

/-- No action faults in the course of a history. -/
def Calm (setting : Setting Value) : Machine Value → List (Deed Value) → Prop
  | _, [] => True
  | machine, deed :: rest =>
      (∀ primitive, deed = .perform primitive →
        ∀ cause after, ¬ActionFault setting primitive machine after cause) ∧
      Calm setting (deed.after setting machine) rest

variable {machine : Machine Value} {name : String}

theorem calm_of_not_actionFaults (hactions : ∀ cause, ¬setting.ActionFaults cause)
    (machine : Machine Value) (history : List (Deed Value)) : machine.Calm setting history := by
  induction history generalizing machine with
  | nil => trivial
  | cons deed rest ih =>
      exact ⟨fun _ _ cause _ hfault => hactions cause hfault.actionFaults, ih _⟩

/-- A deed is posted, or it begins a new parse, or it leaves the events and the counters of the
rules alone. -/
theorem books_after (setting : Setting Value) (machine : Machine Value) {deed : Deed Value}
    (hsilent : deed.isSilent = true) :
    (∃ posting, (deed.after setting machine).books = machine.books.post posting) ∨
      (deed.after setting machine).books = ⟨.zero, [], []⟩ ∨
      (∃ tables, (deed.after setting machine).books =
        { machine.books with counters := { machine.books.counters with tables := tables } }) ∨
      ∃ primitive cause after, deed = .perform primitive ∧
        ActionFault setting primitive machine after cause ∧
        (deed.after setting machine).books =
          { machine.books with unclosed := machine.books.unclosed.tail } := by
  cases deed with
  | perform primitive =>
      simp only [Deed.after]
      cases hperform : perform setting primitive machine with
      | finished result after => exact .inl ⟨_, books_of_perform hperform⟩
      | faulted cause after =>
          rcases books_of_fault hperform with rfl | ⟨hfault, hbooks⟩
          · exact .inl ⟨.nothing, rfl⟩
          · exact .inr (.inr (.inr ⟨primitive, cause, after, rfl, hfault, hbooks⟩))
      | exhausted => exact .inl ⟨.nothing, rfl⟩
  | note entry => exact .inl ⟨.nothing, books_note (Option.isNone_iff_eq_none.mp hsilent)⟩
  | start => exact .inr (.inl (books_start setting machine))
  | conclude matched =>
      refine .inr (.inr (.inl ?_))
      simp only [Deed.after]
      cases hconclude : conclude setting matched machine with
      | finished answer after | faulted cause after =>
          exact books_conclude (by rw [hconclude]; rfl)
      | exhausted => exact ⟨machine.counters.tables, rfl⟩

theorem tallies_after {deed : Deed Value} (hsilent : deed.isSilent = true) (hname : name ≠ "")
    (htallies : machine.books.Tallies name) :
    (deed.after setting machine).books.Tallies name := by
  rcases books_after setting machine hsilent with
    ⟨posting, hbooks⟩ | hbooks | ⟨tables, hbooks⟩ | ⟨_, _, _, _, _, hbooks⟩ <;> rw [hbooks]
  · exact htallies.post hname posting
  · exact Books.tallies_empty name
  · exact htallies.replace tables machine.books.unclosed
  · exact htallies.replace machine.books.counters.tables machine.books.unclosed.tail

theorem nested_after {deed : Deed Value} (hsilent : deed.isSilent = true)
    (hcalm : ∀ primitive, deed = .perform primitive →
      ∀ cause after, ¬ActionFault setting primitive machine after cause)
    (hnested : machine.books.Nested) : (deed.after setting machine).books.Nested := by
  rcases books_after setting machine hsilent with
    ⟨posting, hbooks⟩ | hbooks | ⟨tables, hbooks⟩ | ⟨primitive, cause, after, hdeed, hfault, _⟩
  · rw [hbooks]
    exact hnested.post posting
  · rw [hbooks]
    rfl
  · rw [hbooks]
    exact hnested
  · exact absurd hfault (hcalm primitive hdeed cause after)

/-- The counters of every rule stay in agreement with the events, whatever happens. -/
theorem tallies_afterAll (hname : name ≠ "") {history : List (Deed Value)}
    (hsilent : ∀ deed ∈ history, deed.isSilent = true)
    (htallies : machine.books.Tallies name) :
    (machine.afterAll setting history).books.Tallies name := by
  induction history generalizing machine with
  | nil => exact htallies
  | cons deed rest ih =>
      rw [List.forall_mem_cons] at hsilent
      exact ih hsilent.2 (tallies_after hsilent.1 hname htallies)

theorem nested_afterAll {history : List (Deed Value)}
    (hsilent : ∀ deed ∈ history, deed.isSilent = true) (hcalm : machine.Calm setting history)
    (hnested : machine.books.Nested) : (machine.afterAll setting history).books.Nested := by
  induction history generalizing machine with
  | nil => exact hnested
  | cons deed rest ih =>
      rw [List.forall_mem_cons] at hsilent
      exact ih hsilent.2 hcalm.2 (nested_after hsilent.1 hcalm.1 hnested)

theorem countP_isOf_unclosed (hname : name ≠ "") :
    machine.books.unclosed.countP (·.isOf name) =
      machine.frames.countP fun frame => frame.phrase.name == name := by
  rw [books, List.countP_map]
  congr 1
  funext frame
  exact Bracket.isOf_of hname _ _ _

/-- Since the machine was built, or since the latest parse began, as long as no action faults:
the events of opened and closed phrases are nested, each phrase being closed as what it was
opened as; the phrases still to be closed are those on the stack; and for every rule the
counters say how often its body was entered, how often it was closed as succeeded or as failed,
and how often it was entered where it had been entered before. -/
theorem trace_counters_and_stack_agree (setting : Setting Value) {base : Machine Value}
    (hbase : base = .initial ∨ ∃ before : Machine Value, base = before.start setting)
    {history : List (Deed Value)} (hsilent : ∀ deed ∈ history, deed.isSilent = true)
    (hcalm : base.Calm setting history) :
    let machine := base.afterAll setting history
    let events := eventsOf machine.journal.entries
    Event.unclosed? events = some (machine.frames.map fun frame => frame.phrase.bracket) ∧
      ∀ name, name ≠ "" →
        let counted := machine.counters.rule name
        let entrances := Event.entrances name events
        counted.calls = entrances.length ∧
          counted.succeeded = events.countP (Event.closes name true) ∧
          counted.failed = events.countP (Event.closes name false) ∧
          counted.calls = counted.succeeded + counted.failed +
            machine.frames.countP (fun frame => frame.phrase.name == name) ∧
          counted.rescanned + entrances.toFinset.card = counted.calls := by
  have hempty : base.books = ⟨.zero, [], []⟩ := by
    rcases hbase with rfl | ⟨before, rfl⟩
    · rfl
    · exact books_start setting before
  intro machine events
  have hunclosed : Event.unclosed? events = some machine.books.unclosed := by
    rw [← Event.unclosed?_filter]
    apply nested_afterAll hsilent hcalm
    rw [hempty]
    rfl
  refine ⟨hunclosed, fun name hname => ?_⟩
  intro counted entrances
  have htallies : machine.books.Tallies name :=
    tallies_afterAll hname hsilent (hempty ▸ Books.tallies_empty name)
  obtain ⟨hcalls, hsucceeded, hfailed, _, hrescanned⟩ := htallies
  simp only [books, brackets, Event.entrances_filter, Event.countP_closes_filter]
    at hcalls hsucceeded hfailed hrescanned
  refine ⟨hcalls, hsucceeded, hfailed, ?_, hrescanned.trans hcalls.symm⟩
  rw [hcalls, hsucceeded, hfailed, ← countP_isOf_unclosed hname]
  exact Event.length_entrances hunclosed

/-- A letter is looked for twice at the start of the text, the second time inside a pair, which
then asks for another letter. -/
theorem trace_counters_and_stack_agree_letters :
    let action : Action Nat := fun _ _ => .ok (some 1)
    let setting : Setting Nat := ⟨.ofText "ab", ⟨[("letter", action)]⟩, ⟨0, by decide⟩⟩
    let history : List (Deed Nat) :=
      [.perform (.begin "letter" "a letter"), .perform (.next (.character 'b')),
        .perform (.close .reject), .perform (.begin "" "a pair"),
        .perform (.begin "letter" "a letter"), .perform (.next (.character 'a')),
        .perform (.close .accept), .note (.step (some true) 1),
        .perform (.begin "letter" "a letter")]
    let machine := (Machine.initial.start setting).afterAll setting history
    let events := eventsOf machine.journal.entries
    Event.unclosed? events = some [⟨"letter", false, 1⟩, ⟨"a pair", true, 0⟩] ∧
      (Event.entrances "letter" events).length = 3 ∧
      (Event.entrances "letter" events).toFinset.card = 2 ∧
      events.countP (Event.closes "letter" true) = 1 ∧
      events.countP (Event.closes "letter" false) = 1 := by
  intro action setting history machine events
  have hactions : ∀ cause, ¬setting.ActionFaults cause := by
    rintro cause ⟨found, phrase, hfound, herror⟩
    simp only [setting, Semantics.action?, List.lookup_cons, List.lookup_nil] at hfound
    split at hfound
    · obtain rfl := Option.some.inj hfound
      contradiction
    · contradiction
  have hsilent : ∀ deed ∈ history, deed.isSilent = true := by decide
  obtain ⟨hunclosed, hcounters⟩ := trace_counters_and_stack_agree setting
    (.inr ⟨.initial, rfl⟩) hsilent (calm_of_not_actionFaults hactions _ history)
  obtain ⟨hcalls, hsucceeded, hfailed, _, hrescanned⟩ := hcounters "letter" (by decide)
  have hframes : machine.frames.map (fun frame => frame.phrase.bracket) =
      [⟨"letter", false, 1⟩, ⟨"a pair", true, 0⟩] := by
    decide +kernel
  have hcounted : machine.counters.rule "letter" = ⟨3, 1, 1, 0, 1⟩ := by decide +kernel
  simp only [machine] at hcounted hframes
  rw [hcounted] at hcalls hsucceeded hfailed hrescanned
  refine ⟨hunclosed.trans (congrArg some hframes), hcalls.symm, ?_, hsucceeded.symm,
    hfailed.symm⟩
  exact Nat.add_left_cancel hrescanned

end Machine

end Packrat
