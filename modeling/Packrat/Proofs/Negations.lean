import Mathlib.Order.BooleanAlgebra.Set
import Mathlib.Order.Interval.Set.Basic
import Packrat.Proofs.WithinSource

/-!
# Terminals and their negations

Most terminals stand for a set of characters and take one character of it, and their negations
stand for the complement.  A text is taken where the source goes on with it, and its negation
takes one character where the source does not; the end of the source is the negation of any
character.  So before the end exactly one of a terminal and its negation matches, and asking
that a terminal does not match is asking for its negation.
-/

namespace Packrat

variable {source : Source} {position length : Nat}

namespace Terminal

/-! ## Sets of characters -/

/-- The characters that a terminal stands for, if it takes one character of a set. -/
def characters? : Terminal → Option (Set Char)
  | .character wanted => some {wanted}
  | .otherCharacter unwanted => some {unwanted}ᶜ
  | .oneOf listed => some {found | found ∈ listed.toList}
  | .noneOf listed => some {found | found ∈ listed.toList}ᶜ
  | .between first last => some (Set.Icc first last)
  | .outside first last => some (Set.Icc first last)ᶜ
  | .anyCharacter => some Set.univ
  | .text _ | .otherText _ | .endOfText => none

variable {terminal : Terminal} {characters : Set Char}

theorem characters?_negate (hcharacters : terminal.characters? = some characters)
    (hsome : terminal ≠ .anyCharacter) : terminal.negate.characters? = some charactersᶜ := by
  cases terminal with
  | anyCharacter => contradiction
  | text _ | otherText _ | endOfText => cases hcharacters
  | character _ | oneOf _ | between _ _ =>
      cases hcharacters
      rfl
  | otherCharacter _ | noneOf _ | outside _ _ =>
      cases hcharacters
      rw [compl_compl]
      rfl

theorem lengthOfOne?_eq_some_iff_mem {test : Char → Bool}
    (htest : ∀ found, test found = true ↔ found ∈ characters) :
    lengthOfOne? source position test = some length ↔
      (∃ found ∈ characters, source.text.toList[position]? = some found) ∧ length = 1 := by
  rw [lengthOfOne?, source.next?_eq_getElem?]
  cases source.text.toList[position]? with
  | none => simp
  | some found =>
      by_cases hfound : found ∈ characters
      · simp [(htest found).mpr hfound, hfound, eq_comm]
      · have hrefused : test found = false :=
          Bool.eq_false_iff.mpr fun haccepted => hfound ((htest found).mp haccepted)
        simp [hrefused, hfound]

theorem matchLength?_eq_some_iff_mem (hcharacters : terminal.characters? = some characters) :
    terminal.matchLength? source position = some length ↔
      (∃ found ∈ characters, source.text.toList[position]? = some found) ∧ length = 1 := by
  cases terminal with
  | text _ | otherText _ | endOfText => cases hcharacters
  | _ =>
      cases hcharacters
      exact lengthOfOne?_eq_some_iff_mem fun found => by simp [imp_iff_not_or]

theorem isSome_matchLength?_iff_mem (hcharacters : terminal.characters? = some characters) :
    (terminal.matchLength? source position).isSome ↔
      ∃ found ∈ characters, source.text.toList[position]? = some found := by
  simp [Option.isSome_iff_exists, matchLength?_eq_some_iff_mem hcharacters]

/-! ## Texts and ends -/

theorem text_eq_some_iff {wanted : String} :
    (text wanted).matchLength? source position = some length ↔
      wanted.toList <+: source.rest position ∧ length = wanted.toList.length :=
  lengthOfText?_eq_some_iff

theorem otherText_eq_some_iff {unwanted : String} :
    (otherText unwanted).matchLength? source position = some length ↔
      position < source.length ∧ ¬ unwanted.toList <+: source.rest position ∧ length = 1 := by
  have hinside : position < source.length ↔
      ∃ found after, source.rest position = found :: after := by
    rw [← List.ne_nil_iff_exists_cons, ← List.length_pos_iff, source.length_rest]
    omega
  rw [matchLength?, lengthOfOne?_eq_some_iff, hinside]
  simp only [Option.isNone_iff_eq_none, lengthOfText?_eq_none_iff]
  tauto

theorem endOfText_eq_some_iff :
    endOfText.matchLength? source position = some length ↔
      source.length ≤ position ∧ length = 0 := by
  have hnone : source.next? position = none ↔ source.length ≤ position := by
    rw [source.next?_eq_getElem?, List.getElem?_eq_none_iff, source.length_eq]
  by_cases hend : source.next? position = none
  · simp [matchLength?, hend, hnone.mp hend, eq_comm]
  · have hsome := mt hnone.mpr hend
    simp [matchLength?, hend, hsome]

theorem takes_nil_iff :
    terminal.Takes [] length ↔ (terminal = .endOfText ∨ terminal = .text "") ∧ length = 0 := by
  constructor
  · intro htakes
    generalize hrest : ([] : List Char) = rest at htakes
    cases htakes with
    | text wanted after =>
        obtain ⟨hwanted, -⟩ := List.append_eq_nil_iff.mp hrest.symm
        rw [hwanted]
        exact ⟨.inr (congrArg text (String.toList_eq_nil_iff.mp hwanted)), rfl⟩
    | endOfText => exact ⟨.inl rfl, rfl⟩
    | _ => cases hrest
  · rintro ⟨rfl | rfl, rfl⟩
    · exact .endOfText
    · exact .text "" []

theorem eq_some_iff_of_length_le (hend : source.length ≤ position) :
    terminal.matchLength? source position = some length ↔
      (terminal = .endOfText ∨ terminal = .text "") ∧ length = 0 := by
  have hrest : source.rest position = [] := by
    rw [← List.length_eq_zero_iff, source.length_rest]
    omega
  rw [matchLength?_eq_some_iff, hrest, takes_nil_iff]

/-! ## One of the two -/

/-- The terminal matches and its negation does not, or the other way round. -/
def Splits (source : Source) (position : Nat) (terminal : Terminal) : Prop :=
  (terminal.matchLength? source position).isSome ↔
    ¬ (terminal.negate.matchLength? source position).isSome

theorem Splits.negate (hsplits : terminal.Splits source position) :
    terminal.negate.Splits source position := by
  rw [Splits, negate_negate]
  exact (not_congr hsplits).trans not_not |>.symm

theorem text_splits (wanted : String) (hinside : position < source.length) :
    (text wanted).Splits source position := by
  simp only [Splits, Terminal.negate, Option.isSome_iff_exists, text_eq_some_iff,
    otherText_eq_some_iff]
  simp [hinside]

theorem anyCharacter_splits : anyCharacter.Splits source position := by
  have hsome : (anyCharacter.matchLength? source position).isSome ↔ position < source.length := by
    have hcharacters : anyCharacter.characters? = some Set.univ := rfl
    simp [isSome_matchLength?_iff_mem hcharacters, source.length_eq, List.getElem?_eq_some_iff]
  simp only [Splits, hsome, Terminal.negate, Option.isSome_iff_exists, endOfText_eq_some_iff]
  simp

theorem splits_of_characters (hcharacters : terminal.characters? = some characters)
    (hsome : terminal ≠ .anyCharacter) (hinside : position < source.length) :
    terminal.Splits source position := by
  have hfound : source.text.toList[position]? = some _ :=
    List.getElem?_eq_getElem (source.length_eq ▸ hinside)
  rw [Splits, isSome_matchLength?_iff_mem hcharacters,
    isSome_matchLength?_iff_mem (characters?_negate hcharacters hsome)]
  simp [hfound]

/-- Before the end, one of a terminal and its negation matches, and only one. -/
theorem splits (terminal : Terminal) (hinside : position < source.length) :
    terminal.Splits source position := by
  cases terminal with
  | text wanted => exact text_splits wanted hinside
  | otherText unwanted => exact (text_splits unwanted hinside).negate
  | anyCharacter => exact anyCharacter_splits
  | endOfText => exact anyCharacter_splits.negate
  | _ => exact splits_of_characters rfl (by simp) hinside

end Terminal

namespace Machine

variable {Value : Type} {setting : Setting Value} {machine : Machine Value}

/-- Before the end, asking that a terminal does not match is answered as the negation would
match. -/
theorem perform_aheadNot (terminal : Terminal)
    (hinside : machine.position < setting.source.length) :
    ∃ after, perform setting (.aheadNot terminal) machine = .finished
      (some (terminal.negate.matchLength? setting.source machine.position).isSome) after := by
  have hnegate : (terminal.negate.matchLength? setting.source machine.position).isSome =
      !(terminal.matchLength? setting.source machine.position).isSome := by
    rw [Bool.eq_iff_iff, Bool.not_eq_true', ← Bool.not_eq_true]
    exact (terminal.splits hinside).negate.trans (by rw [terminal.negate_negate])
  have hanswer : ∃ after, aheadNot setting terminal machine =
      .finished (!(terminal.matchLength? setting.source machine.position).isSome) after := by
    simp only [aheadNot]
    cases terminal.matchLength? setting.source machine.position <;> exact ⟨_, rfl⟩
  obtain ⟨after, hafter⟩ := hanswer
  rw [hnegate]
  exact ⟨after, Run.map_of_finished hafter some⟩

end Machine

/-! ## All kinds -/

namespace Terminal

/-- What the terminals match at a position, kind by kind, and how much they take there. -/
structure MatchesByKind (source : Source) (position : Nat) : Prop where
  text : ∀ wanted length, (Terminal.text wanted).matchLength? source position = some length ↔
    wanted.toList <+: source.rest position ∧ length = wanted.toList.length
  otherText : ∀ unwanted length,
    (Terminal.otherText unwanted).matchLength? source position = some length ↔
      position < source.length ∧ ¬ unwanted.toList <+: source.rest position ∧ length = 1
  endOfText : ∀ length, Terminal.endOfText.matchLength? source position = some length ↔
    source.length ≤ position ∧ length = 0
  ofCharacters : ∀ (terminal : Terminal) characters, terminal.characters? = some characters →
    ∀ length, terminal.matchLength? source position = some length ↔
      (∃ found ∈ characters, source.text.toList[position]? = some found) ∧ length = 1
  stop_le_length : ∀ (terminal : Terminal) length, position ≤ source.length →
    terminal.matchLength? source position = some length → position + length ≤ source.length

theorem matchesByKind (source : Source) (position : Nat) : MatchesByKind source position where
  text _ _ := text_eq_some_iff
  otherText _ _ := otherText_eq_some_iff
  endOfText _ := endOfText_eq_some_iff
  ofCharacters _ _ hcharacters _ := matchLength?_eq_some_iff_mem hcharacters
  stop_le_length terminal length hposition hmatch := by
    have hlength := matchLength?_le hmatch
    omega

/-- At any position a terminal finds out whether it matches, and matches what its kind means.
Before the end its negation matches exactly where it does not, and this is how a demand that it
does not match is answered.  From the end on, only the end and the empty text are found. -/
theorem matches_by_kind_and_splits (source : Source) (position : Nat) :
    MatchesByKind source position ∧
    (∀ terminal : Terminal,
      terminal.matchChecked source position = .ok (terminal.matchLength? source position)) ∧
    (position < source.length → ∀ terminal : Terminal, terminal.Splits source position) ∧
    (source.length ≤ position → ∀ (terminal : Terminal) (length : Nat),
      terminal.matchLength? source position = some length ↔
        (terminal = .endOfText ∨ terminal = .text "") ∧ length = 0) ∧
    ∀ {Value : Type} (setting : Setting Value) (machine : Machine Value),
      setting.source = source → machine.position = position → position < source.length →
        ∀ terminal : Terminal, ∃ after,
          Machine.perform setting (.aheadNot terminal) machine =
            .finished (some (terminal.negate.matchLength? source position).isSome) after := by
  refine ⟨matchesByKind source position, fun terminal => terminal.matchChecked_eq source position,
    fun hinside terminal => terminal.splits hinside,
    fun hend _ _ => eq_some_iff_of_length_le hend, ?_⟩
  rintro Value setting machine rfl rfl hinside terminal
  exact Machine.perform_aheadNot terminal hinside

/-- A range that ends before it begins, and the empty text far beyond the end. -/
theorem matches_by_kind_and_splits_letters :
    let setting : Setting Nat := ⟨.ofText "añ", .empty, ⟨0, by decide⟩⟩
    let machine : Machine Nat := Machine.initial.moveTo 1
    ((between 'z' 'a').matchLength? setting.source 1 = none ∧
      (between 'z' 'a').Splits setting.source 1 ∧
      ∃ after, Machine.perform setting (.aheadNot (.between 'z' 'a')) machine =
        .finished (some true) after) ∧
    (otherText "").matchLength? setting.source 7 = none ∧
      (text "").matchLength? setting.source 7 = some 0 := by
  intro setting machine
  have hlength : setting.source.length = 2 := by decide +kernel
  obtain ⟨-, -, hsplits, -, hasked⟩ := matches_by_kind_and_splits setting.source 1
  obtain ⟨-, -, -, hend, -⟩ := matches_by_kind_and_splits setting.source 7
  have hinside : 1 < setting.source.length := by rw [hlength]; decide
  have hbeyond : setting.source.length ≤ 7 := by rw [hlength]; decide
  have houtside : ((outside 'z' 'a').matchLength? setting.source 1).isSome = true := by
    decide +kernel
  obtain ⟨after, hafter⟩ := hasked setting machine rfl rfl hinside (.between 'z' 'a')
  refine ⟨⟨?_, hsplits hinside (.between 'z' 'a'), after, hafter.trans ?_⟩, ?_, ?_⟩
  · decide +kernel
  · rw [negate, houtside]
  · rw [Option.eq_none_iff_forall_ne_some]
    intro length hmatch
    simpa using (hend hbeyond _ length).mp hmatch
  · exact (hend hbeyond _ 0).mpr ⟨.inr rfl, rfl⟩

end Terminal

end Packrat
