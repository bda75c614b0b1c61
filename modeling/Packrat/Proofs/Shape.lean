import Packrat.Engine.Parse
import Packrat.Proofs.PrimitiveSteps

/-!
# What is left without values

The shape of a phrase is the phrase without its values, and so for everything that holds
phrases.  A journal loses the entries of actions altogether, so its shape is the same whether
or not a rule has an action.  Whatever the machine does to its data, it does to their shapes.
-/

namespace Packrat

variable {Value : Type}

/-! ## Phrases -/

namespace Phrase

mutual

/-- The phrase without the values in it. -/
def shape : Phrase Value → Phrase Unit
  | ⟨name, diagnosis, start, stop, success, children, _, failure⟩ =>
      ⟨name, diagnosis, start, stop, success, shapes children, none, failure⟩

def shapes : List (Phrase Value) → List (Phrase Unit)
  | [] => []
  | phrase :: rest => shape phrase :: shapes rest

end

theorem shapes_eq (phrases : List (Phrase Value)) : shapes phrases = phrases.map shape := by
  induction phrases with
  | nil => rfl
  | cons phrase rest ih => rw [shapes, ih, List.map_cons]

variable (phrase part : Phrase Value)

@[simp]
theorem name_shape : phrase.shape.name = phrase.name := by
  cases phrase
  rfl

@[simp]
theorem diagnosis_shape : phrase.shape.diagnosis = phrase.diagnosis := by
  cases phrase
  rfl

@[simp]
theorem start_shape : phrase.shape.start = phrase.start := by
  cases phrase
  rfl

@[simp]
theorem stop_shape : phrase.shape.stop = phrase.stop := by
  cases phrase
  rfl

@[simp]
theorem success_shape : phrase.shape.success = phrase.success := by
  cases phrase
  rfl

@[simp]
theorem failure_shape : phrase.shape.failure = phrase.failure := by
  cases phrase
  rfl

@[simp]
theorem value_shape : phrase.shape.value = none := by
  cases phrase
  rfl

@[simp]
theorem children_shape : phrase.shape.children = phrase.children.map shape := by
  cases phrase
  exact shapes_eq _

/-- The shape, read off field by field. -/
theorem shape_eq :
    phrase.shape =
      ⟨phrase.name, phrase.diagnosis, phrase.start, phrase.stop, phrase.success,
        phrase.children.map shape, none, phrase.failure⟩ := by
  rw [← shapes_eq]
  cases phrase
  rfl

@[simp]
theorem isInner_shape : phrase.shape.isInner = phrase.isInner := by
  rw [isInner, name_shape, isInner]

@[simp]
theorem title_shape : phrase.shape.title = phrase.title := by
  rw [title, isInner_shape, diagnosis_shape, name_shape, title]

@[simp]
theorem shape_opened (name diagnosis : String) (start : Nat) :
    (opened name diagnosis start : Phrase Value).shape = opened name diagnosis start := rfl

@[simp]
theorem shape_absorb (use : PhraseUse) (cursor : Nat) :
    (phrase.absorb use part cursor).shape = phrase.shape.absorb use part.shape cursor := by
  cases hsuccess : part.success <;> cases use <;>
    simp [absorb, attach, splice, inheritFailure, shape_eq, hsuccess]

theorem shape_settle (closing : Closing) (cursor : Nat) (value : Option Value) :
    ({ closing.settle cursor phrase with value := value } : Phrase Value).shape =
      { closing.settle cursor phrase.shape with value := none } := by
  cases closing <;> simp [Closing.settle, Closing.failureOf, shape_eq]

theorem stop_settle_shape (closing : Closing) (cursor : Nat) :
    (closing.settle cursor phrase.shape).stop = (closing.settle cursor phrase).stop := by
  simp only [Closing.settle, start_shape]

end Phrase

/-! ## Memo tables -/

def Slot.shape (slot : Slot Value) : Slot Unit :=
  ⟨slot.start, slot.serial, slot.result.map Phrase.shape⟩

def Lookup.shape : Lookup Value → Lookup Unit
  | .miss => .miss
  | .pending => .pending
  | .hit phrase => .hit phrase.shape

namespace MemoTable

def shape (table : MemoTable Value) : MemoTable Unit :=
  ⟨table.name, table.diagnosis, table.slots.map (·.map Slot.shape), table.last, table.serial,
    table.counters⟩

variable (table : MemoTable Value) (position : Nat)

theorem occupied_shape : table.shape.occupied = table.occupied.map Slot.shape := by
  simp only [occupied, shape, List.filterMap_map, List.map_filterMap]
  rfl

theorem lookup_shape : table.shape.lookup position = (table.lookup position).shape := by
  have hstart : ((fun slot : Slot Unit => slot.start == position) ∘ Slot.shape) =
      fun slot : Slot Value => slot.start == position := rfl
  rw [lookup, occupied_shape, List.find?_map, hstart, lookup]
  cases table.occupied.find? (·.start == position) with
  | none => rfl
  | some slot =>
      obtain ⟨start, serial, result⟩ := slot
      cases result <;> rfl

theorem shape_empty (name diagnosis : String) (capacity : Nat) :
    (empty name diagnosis capacity : MemoTable Value).shape =
      empty name diagnosis capacity := by
  simp [empty, shape]

theorem shape_reset (capacity : Nat) : (table.reset capacity).shape = table.shape.reset capacity :=
  shape_empty table.name table.diagnosis capacity

theorem shape_find :
    table.shape.find position =
      ((table.find position).1.shape, (table.find position).2.shape) := by
  have hempty : table.shape.slots.isEmpty = table.slots.isEmpty := List.isEmpty_map
  simp only [find, hempty, lookup_shape]
  cases table.slots.isEmpty with
  | true => rfl
  | false => cases table.lookup position <;> rfl

theorem shape_save :
    table.shape.save position = ((table.save position).1, (table.save position).2.shape) := by
  have hempty : table.shape.slots.isEmpty = table.slots.isEmpty := List.isEmpty_map
  have hlength : table.shape.slots.length = table.slots.length := List.length_map _
  have hevicted : ∀ next : Nat, (table.shape.slots[next]?.join).map Slot.start =
      (table.slots[next]?.join).map Slot.start := by
    intro next
    have hslot : table.shape.slots[next]? = table.slots[next]?.map (·.map Slot.shape) :=
      List.getElem?_map
    rw [hslot]
    cases table.slots[next]? with
    | none => rfl
    | some slot? => cases slot? <;> rfl
  simp only [save, hempty, hlength, hevicted]
  cases table.slots.isEmpty with
  | true => rfl
  | false => simp [shape, Slot.shape, List.map_set]

theorem shape_fill (serial : Nat) (phrase : Phrase Value) :
    (table.fill serial phrase).shape = table.shape.fill serial phrase.shape := by
  simp only [fill, shape, List.map_map]
  congr 1
  apply List.map_congr_left
  intro slot? _
  cases slot? with
  | none => rfl
  | some slot => by_cases hserial : slot.serial = serial <;> simp [Slot.shape, hserial]

theorem shapes_modify (tables : List (MemoTable Value)) (index : Nat)
    {change : MemoTable Value → MemoTable Value}
    {changeShape : MemoTable Unit → MemoTable Unit}
    (hchange : ∀ table, (change table).shape = changeShape table.shape) :
    (tables.modify index change).map shape = (tables.map shape).modify index changeShape := by
  apply List.ext_getElem?
  intro place
  simp only [List.getElem?_map, List.getElem?_modify]
  cases tables[place]? with
  | none => rfl
  | some found => by_cases hplace : index = place <;> simp [hplace, hchange]

end MemoTable

/-! ## Journals -/

/-- An entry of an action says nothing about the parse. -/
def JournalEntry.shape? : JournalEntry Value → Option (JournalEntry Unit)
  | .event noted => some (.event noted)
  | .action _ => none
  | .step result position => some (.step result position)
  | .rule name result start stop => some (.rule name result start stop)
  | .summary counted => some (.summary counted)

def Journal.shape (journal : Journal Value) : Journal Unit :=
  ⟨journal.newestFirst.filterMap JournalEntry.shape?⟩

/-- Every event is kept. -/
theorem Journal.eventsOf_shape (journal : Journal Value) :
    eventsOf journal.shape.entries = eventsOf journal.entries := by
  simp only [eventsOf, entries, shape, List.filterMap_reverse, List.filterMap_filterMap]
  congr 2
  funext entry
  cases entry <;> rfl

/-! ## Machines -/

def Frame.shape (frame : Frame Value) : Frame Unit :=
  ⟨frame.phrase.shape, frame.ticket⟩

/-- The setting in which no rule has an action. -/
def Setting.bare (setting : Setting Value) : Setting Unit :=
  ⟨setting.source, .empty, setting.capacity⟩

namespace Machine

/-- The machine without values, and without a record of the actions. -/
def shape (machine : Machine Value) : Machine Unit where
  position := machine.position
  top := machine.top.shape
  frames := machine.frames.map Frame.shape
  candidate := machine.candidate.map Phrase.shape
  tables := machine.tables.map MemoTable.shape
  counters := machine.counters
  journal := machine.journal.shape

variable (setting : Setting Value) (machine : Machine Value)

theorem current_shape : machine.shape.current = machine.current.shape := by
  cases hframes : machine.frames <;> simp [current, shape, hframes, Frame.shape]

theorem shape_changeCurrent {change : Phrase Value → Phrase Value}
    {changeShape : Phrase Unit → Phrase Unit}
    (hchange : ∀ phrase, (change phrase).shape = changeShape phrase.shape) :
    (machine.changeCurrent change).shape = machine.shape.changeCurrent changeShape := by
  cases hframes : machine.frames <;>
    simp [changeCurrent, shape, hframes, Frame.shape, hchange]

@[simp]
theorem shape_noteEvent (event : Event) :
    (machine.noteEvent event).shape = machine.shape.noteEvent event := rfl

@[simp]
theorem shape_moveTo (position : Nat) :
    (machine.moveTo position).shape = machine.shape.moveTo position := rfl

theorem shape_addTable (name diagnosis : String) :
    (machine.addTable setting name diagnosis).shape =
      machine.shape.addTable setting.bare name diagnosis := by
  simp [addTable, shape, MemoTable.shape_empty, Setting.bare]

theorem shape_start : (machine.start setting).shape = machine.shape.start setting.bare := by
  simp only [start, shape_noteEvent]
  congr 1
  simp [reset, shape, MemoTable.shape_reset, Setting.bare, initial]
  rfl

@[simp]
theorem shape_begin (name diagnosis : String) (ticket : Option Ticket) :
    (machine.begin name diagnosis ticket).shape =
      machine.shape.begin name diagnosis ticket := rfl

@[simp]
theorem shape_noteClosed (phrase : Phrase Value) :
    (machine.noteClosed phrase).shape = machine.shape.noteClosed phrase.shape := by
  simp only [noteClosed, Phrase.isInner_shape, Phrase.title_shape, Phrase.start_shape,
    Phrase.stop_shape, Phrase.success_shape, Phrase.name_shape]
  cases phrase.isInner <;> rfl

@[simp]
theorem shape_fill (ticket : Option Ticket) (phrase : Phrase Value) :
    (machine.fill ticket phrase).shape = machine.shape.fill ticket phrase.shape := by
  cases ticket with
  | none => rfl
  | some ticket =>
      simp only [fill, shape]
      congr 1
      exact MemoTable.shapes_modify _ _ fun table => table.shape_fill ticket.serial phrase

@[simp]
theorem shape_absorb (use : PhraseUse) (part : Phrase Value) :
    (machine.absorb use part).shape = machine.shape.absorb use part.shape :=
  shape_changeCurrent machine fun phrase => phrase.shape_absorb part use machine.position

@[simp]
theorem shape_fail (terminal : Terminal) :
    (machine.fail terminal).shape = machine.shape.fail terminal := by
  have hposition : machine.shape.position = machine.position := rfl
  simp only [fail, current_shape, Phrase.failure_shape, hposition]
  split
  · rfl
  · exact shape_changeCurrent _ fun phrase => by simp [Phrase.shape_eq]

@[simp]
theorem shape_consume (length : Nat) :
    (machine.consume length).shape = machine.shape.consume length := by
  have hposition : machine.shape.position = machine.position := rfl
  simp only [consume, hposition, ← shape_moveTo]
  exact shape_changeCurrent _ fun phrase => by simp [Phrase.shape_eq, Phrase.ofTerminal]

theorem shape_setTable (index : Nat) (table : MemoTable Value) :
    { machine with tables := machine.tables.set index table : Machine Value }.shape =
      { machine.shape with tables := machine.shape.tables.set index table.shape } := by
  simp only [shape, List.map_set]

@[simp]
theorem shape_offer (name : String) (candidate : Phrase Value) :
    (machine.offer name candidate).shape = machine.shape.offer name candidate.shape := rfl

@[simp]
theorem shape_publishTables :
    machine.publishTables.shape = machine.shape.publishTables := by
  simp [publishTables, shape, MemoTable.shape]

end Machine

end Packrat
