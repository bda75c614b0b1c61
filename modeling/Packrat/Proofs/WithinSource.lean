import Packrat.Proofs.History
import Packrat.Proofs.Positions

/-!
# Nothing outside the source

In every session, whatever primitives it calls and whatever has faulted before, all positions
that a machine keeps lie inside the source.  So the checks that a cautious machine would make
never fail: characters are asked for before the end only, the cursor does not pass the end, and
a failed parse can be reported.
-/

namespace Packrat

variable {Value : Type} {setting : Setting Value} {source : Source} {position : Nat}

/-! ## Checked terminals -/

namespace Source

/-- The character at a position, which has to lie before the end. -/
def characterAt (source : Source) (position : Nat) : Except Fault Char :=
  if position < source.length then
    match source.codePointAt? position with
    | some found => .ok found
    | none => .error .outOfRange
  else .error .outOfRange

/-- The character in front of a position, if there is one. -/
def nextChecked (source : Source) (position : Nat) : Except Fault (Option Char) :=
  if position < source.length then (source.characterAt position).map some else .ok none

theorem nextChecked_eq (source : Source) (position : Nat) :
    source.nextChecked position = .ok (source.next? position) := by
  by_cases hinside : position < source.length
  · have hnext : source.next? position = source.codePointAt? position := if_pos hinside
    obtain ⟨found, after, hrest⟩ : ∃ found after, source.rest position = found :: after :=
      ⟨_, _, List.drop_eq_getElem_cons (source.length_eq ▸ hinside)⟩
    have hfound : source.codePointAt? position = some found := by
      rw [← hnext, next?_eq_head?_rest, hrest, List.head?_cons]
    simp only [nextChecked, characterAt, hinside, if_true, hfound, hnext]
    rfl
  · simp only [nextChecked, next?, hinside, if_false]

end Source

namespace Terminal

def stopOfTextChecked (source : Source) (position : Nat) :
    List Char → Except Fault (Option Nat)
  | [] => .ok (some position)
  | wanted :: rest => do
      let next ← source.nextChecked position
      if next = some wanted then stopOfTextChecked source (position + 1) rest
      else .ok none

def lengthOfTextChecked (source : Source) (position : Nat) (text : String) :
    Except Fault (Option Nat) := do
  let stop? ← stopOfTextChecked source position text.toList
  return stop?.map fun stop => stop - position

def lengthOfOneChecked (source : Source) (position : Nat)
    (test : Char → Except Fault Bool) : Except Fault (Option Nat) := do
  match ← source.nextChecked position with
  | some found => return if ← test found then some 1 else none
  | none => return none

/-- How many characters the terminal takes, where each character that it asks for is
checked to lie before the end. -/
def matchChecked (terminal : Terminal) (source : Source) (position : Nat) :
    Except Fault (Option Nat) :=
  match terminal with
  | .character wanted => lengthOfOneChecked source position fun found => .ok (found == wanted)
  | .otherCharacter unwanted =>
      lengthOfOneChecked source position fun found => .ok (found != unwanted)
  | .text wanted => lengthOfTextChecked source position wanted
  | .otherText unwanted =>
      lengthOfOneChecked source position fun _ =>
        (lengthOfTextChecked source position unwanted).map Option.isNone
  | .oneOf listed =>
      lengthOfOneChecked source position fun found => .ok (listed.toList.contains found)
  | .noneOf listed =>
      lengthOfOneChecked source position fun found => .ok (!listed.toList.contains found)
  | .between first last =>
      lengthOfOneChecked source position fun found => .ok (first ≤ found && found ≤ last)
  | .outside first last =>
      lengthOfOneChecked source position fun found => .ok (found < first || last < found)
  | .anyCharacter => lengthOfOneChecked source position fun _ => .ok true
  | .endOfText => do
      return if (← source.nextChecked position).isNone then some 0 else none

theorem stopOfTextChecked_eq (source : Source) (position : Nat) (wanted : List Char) :
    stopOfTextChecked source position wanted = .ok (stopOfText? source position wanted) := by
  induction wanted generalizing position with
  | nil => rfl
  | cons character wanted ih =>
      simp only [stopOfTextChecked, stopOfText?, source.nextChecked_eq, ih]
      exact (apply_ite Except.ok _ _ _).symm

theorem lengthOfTextChecked_eq (source : Source) (position : Nat) (text : String) :
    lengthOfTextChecked source position text = .ok (lengthOfText? source position text) := by
  rw [lengthOfTextChecked, stopOfTextChecked_eq]
  rfl

theorem lengthOfOneChecked_eq (source : Source) (position : Nat)
    {test : Char → Except Fault Bool} {holds : Char → Bool}
    (htest : ∀ found, test found = .ok (holds found)) :
    lengthOfOneChecked source position test = .ok (lengthOfOne? source position holds) := by
  rw [lengthOfOneChecked, source.nextChecked_eq, lengthOfOne?]
  cases source.next? position with
  | none => rfl
  | some found =>
      simp only [htest]
      rfl

/-- No terminal ever asks for a character at the end or beyond. -/
theorem matchChecked_eq (terminal : Terminal) (source : Source) (position : Nat) :
    terminal.matchChecked source position = .ok (terminal.matchLength? source position) := by
  cases terminal with
  | text wanted => exact lengthOfTextChecked_eq source position wanted
  | otherText unwanted =>
      apply lengthOfOneChecked_eq
      intro found
      rw [lengthOfTextChecked_eq]
      rfl
  | endOfText =>
      rw [matchChecked, source.nextChecked_eq]
      rfl
  | _ => exact lengthOfOneChecked_eq source position fun _ => rfl

end Terminal

/-! ## Checked primitives -/

/-- Tries the terminal of a primitive, if it has one. -/
def Primitive.matchChecked (source : Source) (position : Nat) :
    Primitive → Except Fault (Option Nat)
  | .next terminal | .ahead terminal | .aheadNot terminal =>
      terminal.matchChecked source position
  | _ => .ok none

theorem Primitive.exists_matchChecked (source : Source) (position : Nat)
    (primitive : Primitive) : ∃ taken?, primitive.matchChecked source position = .ok taken? := by
  cases primitive with
  | next terminal | ahead terminal | aheadNot terminal =>
      exact ⟨_, terminal.matchChecked_eq source position⟩
  | _ => exact ⟨none, rfl⟩

namespace Machine

/-- Performs a primitive, and checks that it asks for no character beyond the end and does
not take the cursor there. -/
def performChecked (setting : Setting Value) (primitive : Primitive) :
    Run Value (Option Bool) :=
  fun machine =>
    match primitive.matchChecked setting.source machine.position with
    | .error cause => .faulted cause machine
    | .ok _ =>
        match perform setting primitive machine with
        | .finished result after =>
            if after.position ≤ setting.source.length then .finished result after
            else .faulted .outOfRange after
        | outcome => outcome

variable {machine : Machine Value}

theorem performChecked_eq (hmachine : machine.core.Within setting.source.length)
    (primitive : Primitive) :
    performChecked setting primitive machine = perform setting primitive machine := by
  obtain ⟨taken?, htaken⟩ := primitive.exists_matchChecked setting.source machine.position
  simp only [performChecked, htaken]
  cases hperform : perform setting primitive machine with
  | finished result after =>
      exact if_pos ((step_of_perform hperform).within hmachine).position_le
  | faulted cause after => rfl
  | exhausted => rfl

/-! ## Reachable machines -/

/-- A phrase that is kept anywhere in a machine. -/
inductive Holds (machine : Machine Value) : Phrase Value → Prop where
  | top : Holds machine machine.top
  | opened {frame : Frame Value} (hframe : frame ∈ machine.frames) : Holds machine frame.phrase
  | candidate {phrase : Phrase Value} (hcandidate : machine.candidate = some phrase) :
      Holds machine phrase
  | stored {table : MemoTable Value} {slot : Slot Value} {phrase : Phrase Value}
      (htable : table ∈ machine.tables) (hslot : slot ∈ table.occupied)
      (hresult : slot.result = some phrase) : Holds machine phrase
  | child {parent phrase : Phrase Value} (hparent : Holds machine parent)
      (hchild : phrase ∈ parent.children) : Holds machine phrase

theorem Holds.within {phrase : Phrase Value} {length : Nat} (hholds : machine.Holds phrase)
    (hmachine : machine.core.Within length) : phrase.Within length := by
  induction hholds with
  | top => exact hmachine.top
  | opened hframe => exact hmachine.frames _ hframe
  | candidate hcandidate => exact hmachine.candidate _ hcandidate
  | stored htable hslot hresult =>
      obtain ⟨index, hindex⟩ := List.mem_iff_getElem?.mp htable
      exact (hmachine.ledger.holds index _ hindex).result _ hslot _ hresult
  | child _ hchild ih => exact ih.children _ hchild

/-- An action that faults has lost its phrase, and nothing else has changed. -/
theorem within_of_fault {primitive : Primitive} {cause : Fault} {after : Machine Value}
    {length : Nat} (hperform : perform setting primitive machine = .faulted cause after)
    (hmachine : machine.core.Within length) : after.core.Within length := by
  rcases fault_of_perform hperform with ⟨_, rfl⟩ | hfault
  · exact hmachine
  · obtain ⟨phrase, ticket, outer, _, hframes, _, _, hcore⟩ := hfault.action
    obtain ⟨hposition, htop, hopen, hcandidate, hledger⟩ := hmachine
    change ∀ frame ∈ machine.frames, frame.phrase.Within length at hopen
    change Ledger _ machine.frames machine.tables at hledger
    rw [hframes] at hopen hledger
    rw [hcore]
    exact ⟨hposition, htop, (List.forall_mem_cons.mp hopen).2, hcandidate, hledger.pop⟩

theorem within_of_conclude {matched : Bool} {after : Machine Value} {length : Nat}
    (hconclude : (conclude setting matched machine).LeadsTo after)
    (hmachine : machine.core.Within length) : after.core.Within length := by
  rcases core_of_conclude hconclude with hcore | hcore
  · rw [hcore]
    exact hmachine
  · rw [hcore]
    obtain ⟨hposition, _, hopen, hcandidate, hledger⟩ := hmachine
    exact ⟨hposition, .opened "" "" (Nat.zero_le _), hopen, hcandidate, hledger⟩

theorem initial_within (length : Nat) : (initial : Machine Value).core.Within length where
  position_le := Nat.zero_le _
  top := .opened "" "" (Nat.zero_le _)
  frames := List.forall_mem_nil _
  candidate := nofun
  ledger := .of_occupied_eq_nil nofun

/-- Not even a fault leads out of the source. -/
theorem Reachable.within {intact : Bool} (hreachable : Reachable setting intact machine) :
    machine.core.Within setting.source.length := by
  induction hreachable with
  | initial => exact initial_within _
  | note _ _ ih => exact ih
  | perform _ hperform ih => exact (step_of_perform hperform).within ih
  | interrupted _ hperform ih => exact within_of_fault hperform ih
  | start => exact start_within setting _
  | concluded _ hconclude ih => exact within_of_conclude hconclude ih

/-- In every reachable machine, the cursor and every phrase lie inside the source, checked
primitives do what unchecked ones do, and judging a parse finds everything it describes. -/
theorem positions_within_of_reachable {intact : Bool}
    (hreachable : Reachable setting intact machine) :
    machine.position ≤ setting.source.length ∧
      (∀ phrase, machine.Holds phrase →
        phrase.start ≤ setting.source.length ∧ phrase.stop ≤ setting.source.length ∧
          ∀ failed, phrase.failure.position = some failed → failed ≤ setting.source.length) ∧
      (∀ primitive,
        performChecked setting primitive machine = perform setting primitive machine) ∧
      (∃ error, report? setting machine.top machine.position = some error) ∧
      ∀ matched left, conclude setting matched machine ≠ .faulted .outOfRange left := by
  have hwithin := hreachable.within
  refine ⟨hwithin.position_le, ?_, performChecked_eq hwithin, exists_report? hwithin, ?_⟩
  · intro phrase hholds
    obtain ⟨hstart, hstop, hreach, _⟩ := hholds.within hwithin
    refine ⟨hstart, hstop, ?_⟩
    intro failed hfailed
    rw [Failure.reach, hfailed] at hreach
    exact Nat.le_of_succ_le_succ hreach
  · intro matched left hfaulted
    by_cases hframes : machine.frames = []
    · obtain ⟨answer, after, hconclude⟩ := exists_conclude hwithin hframes matched
      rw [hconclude] at hfaulted
      contradiction
    · have hopen : machine.frames.isEmpty = false := by simpa using hframes
      simp [conclude, hopen] at hfaulted

/-- A letter is found again.  Before it is taken, the cursor moves on to the end of the text
and an action faults. -/
theorem positions_within_of_reachable_letter :
    let action : Action Nat := fun _ _ => .error .outOfRange
    let setting : Setting Nat := ⟨.ofText "aa", Semantics.empty.on "digit" action, ⟨2, by decide⟩⟩
    let history : List (Deed Nat) :=
      [.perform (.addTable "letter" "a letter"), .start, .perform (.begin "word" "a word"),
        .perform (.consult 0 false), .perform (.next (.character 'a')),
        .perform (.close .accept), .perform (.close .reject), .perform (.consult 0 false),
        .perform (.next (.text "aa")), .perform (.begin "digit" "a digit"),
        .perform (.close .accept)]
    let machine := Machine.initial.afterAll setting history
    machine.position = 2 ∧ machine.candidate.map Phrase.stop = some 1 ∧
      (∀ phrase, machine.Holds phrase → phrase.start ≤ 2 ∧ phrase.stop ≤ 2) ∧
      performChecked setting (.reuse .rule) machine = perform setting (.reuse .rule) machine ∧
      ∃ error, report? setting machine.top machine.position = some error := by
  intro action setting history machine
  obtain ⟨intact, hreachable⟩ := exists_reachable_afterAll ⟨true, .initial⟩ history
  obtain ⟨_, hholds, hchecked, hreport, _⟩ := positions_within_of_reachable hreachable
  have hlength : setting.source.length = 2 := by decide +kernel
  refine ⟨by decide +kernel, by decide +kernel, ?_, hchecked (.reuse .rule), hreport⟩
  intro phrase hphrase
  obtain ⟨hstart, hstop, _⟩ := hholds phrase hphrase
  exact ⟨hlength ▸ hstart, hlength ▸ hstop⟩

end Machine

end Packrat
