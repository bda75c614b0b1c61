import Packrat.Proofs.ExpectedSets

/-!
# Reports on one line

A report quotes whatever the source has before a position and names whatever characters a
grammar asks for, and yet it is one line.  The control characters of a quotation are escaped,
the labels of terminals are escaped as a whole, and an escape is made of letters, digits and
punctuation.  All else is fixed words and the diagnoses of rules.
-/

namespace Packrat

namespace Text

def HasNoControl (characters : List Char) : Prop :=
  ∀ character ∈ characters, isControl character = false

-- An instance that decides a property of all characters would go through every one of them.
instance (characters : List Char) : Decidable (HasNoControl characters) :=
  List.decidableBAll (fun character => isControl character = false) characters

/-- No character of the text is a control character, so none of them breaks the line. -/
def IsOneLine (text : String) : Prop :=
  HasNoControl text.toList

instance (text : String) : Decidable (IsOneLine text) :=
  inferInstanceAs (Decidable (HasNoControl text.toList))

variable {characters front back : List Char} {text first second : String}

theorem hasNoControl_append :
    HasNoControl (front ++ back) ↔ HasNoControl front ∧ HasNoControl back :=
  List.forall_mem_append

theorem hasNoControl_singleton {character : Char} :
    HasNoControl [character] ↔ isControl character = false :=
  List.forall_mem_singleton

theorem HasNoControl.flatMap {escape : Char → List Char}
    (hescape : ∀ character, HasNoControl (escape character)) (characters : List Char) :
    HasNoControl (characters.flatMap escape) := by
  intro shown hshown
  obtain ⟨character, -, hcharacter⟩ := List.mem_flatMap.mp hshown
  exact hescape character shown hcharacter

theorem isOneLine_ofList : IsOneLine (String.ofList characters) ↔ HasNoControl characters := by
  rw [IsOneLine, String.toList_ofList]

theorem isOneLine_append :
    IsOneLine (first ++ second) ↔ IsOneLine first ∧ IsOneLine second := by
  rw [IsOneLine, String.toList_append]
  exact hasNoControl_append

theorem IsOneLine.intercalate {separator : String} {parts : List String}
    (hseparator : IsOneLine separator) (hparts : ∀ part ∈ parts, IsOneLine part) :
    IsOneLine (separator.intercalate parts) := by
  induction parts with
  | nil => exact List.forall_mem_nil _
  | cons part rest ih =>
      obtain ⟨hpart, hrest⟩ := List.forall_mem_cons.mp hparts
      cases rest with
      | nil => simpa using hpart
      | cons next rest =>
          rw [String.intercalate_cons_cons, isOneLine_append, isOneLine_append]
          exact ⟨⟨hpart, hseparator⟩, ih hrest⟩

theorem IsOneLine.not_mem (htext : IsOneLine text) {character : Char}
    (hcontrol : isControl character = true) : character ∉ text.toList := by
  intro hmember
  rw [htext character hmember] at hcontrol
  contradiction

/-! ## Escapes -/

theorem isControl_digitChar {digit : Nat} (hdigit : digit < 16) :
    isControl digit.digitChar = false := by
  have hdigits : ∀ digit < 16, isControl (Nat.digitChar digit) = false := by decide
  exact hdigits digit hdigit

theorem hasNoControl_toDigits (number : Nat) : HasNoControl (Nat.toDigits 16 number) := by
  induction number using Nat.strongRecOn with
  | ind number ih =>
      rw [Nat.toDigits_eq_if (by decide)]
      split
      · next hsmall => exact hasNoControl_singleton.mpr (isControl_digitChar hsmall)
      · next hlarge =>
          have hlast : number % 16 < 16 := Nat.mod_lt number (by decide)
          exact hasNoControl_append.mpr ⟨ih (number / 16) (by omega),
            hasNoControl_singleton.mpr (isControl_digitChar hlast)⟩

theorem hasNoControl_escapedCodePoint (character : Char) :
    HasNoControl (escapedCodePoint character) := by
  have hopening : HasNoControl ['\\', 'u', '\x7b'] := by decide
  have hclosing : HasNoControl ['\x7d'] := by decide
  rw [escapedCodePoint, hasNoControl_append, hasNoControl_append]
  exact ⟨⟨hopening, hasNoControl_toDigits _⟩, hclosing⟩

/-- Only what can be drawn stands for itself, and all else is escaped. -/
theorem hasNoControl_escapedCharacter (style : EscapeStyle) (character : Char) :
    HasNoControl (escapedCharacter style character) := by
  unfold escapedCharacter
  split
  case h_6 | h_7 => split <;> decide
  case h_8 =>
    split
    · exact hasNoControl_escapedCodePoint _
    · split
      · next hprintable =>
          rw [isPrintable, Bool.and_eq_true, Bool.not_eq_true'] at hprintable
          exact hasNoControl_singleton.mpr hprintable.1
      · exact hasNoControl_escapedCodePoint _
  all_goals decide

theorem isOneLine_characterLabel (character : Char) : IsOneLine (characterLabel character) :=
  isOneLine_ofList.mpr (hasNoControl_escapedCharacter _ _)

theorem isOneLine_textLabel (text : String) : IsOneLine (textLabel text) := by
  rw [textLabel, isOneLine_ofList]
  cases text.toList with
  | nil => exact List.forall_mem_nil _
  | cons first rest =>
      rw [escapedLabel, hasNoControl_append]
      exact ⟨hasNoControl_escapedCharacter _ _, .flatMap (hasNoControl_escapedCharacter _) rest⟩

theorem isOneLine_escapedControls (text : String) : IsOneLine (escapedControls text) := by
  rw [escapedControls, isOneLine_ofList]
  refine .flatMap (fun character => ?_) _
  split
  · exact hasNoControl_escapedCharacter _ _
  · next hplain => exact hasNoControl_singleton.mpr (Bool.eq_false_iff.mpr hplain)

end Text

open Text

/-! ## Parts of a report -/

theorem Terminal.isOneLine_label (terminal : Terminal) : IsOneLine terminal.label := by
  have hmark : IsOneLine negationMark := by decide
  have hquote : IsOneLine "'" := by decide
  have hdoubleQuote : IsOneLine "\"" := by decide
  have hopening : IsOneLine "[" := by decide
  have hclosing : IsOneLine "]" := by decide
  have hdash : IsOneLine "-" := by decide
  cases terminal with
  | anyCharacter | endOfText => decide
  | _ =>
      simp only [label, isOneLine_append, isOneLine_characterLabel, isOneLine_textLabel, hmark,
        hquote, hdoubleQuote, hopening, hclosing, hdash, and_self]

theorem Source.isOneLine_located (position : Nat) (quoted : List Char) :
    IsOneLine (located position quoted) := by
  have hopening : IsOneLine "after '" := by decide
  have hleftOut : IsOneLine (if quoted.length < position then "..." else "") := by
    split <;> decide
  have hclosing : IsOneLine "'" := by decide
  rw [located]
  split
  · decide
  · simp only [isOneLine_append]
    exact ⟨⟨⟨hopening, hleftOut⟩, isOneLine_escapedControls _⟩, hclosing⟩

namespace ExpectedSet

variable {set : ExpectedSet}

theorem isOneLine_of_mem_clause {opening part : String} {labels : List String}
    (hopening : IsOneLine opening) (hlabels : ∀ label ∈ labels, IsOneLine label)
    (hpart : part ∈ clause opening labels) : IsOneLine part := by
  have hjoint : IsOneLine " or " := by decide
  rw [clause] at hpart
  split at hpart
  · cases hpart
  · rw [List.mem_singleton.mp hpart, isOneLine_append]
    exact ⟨hopening, hjoint.intercalate hlabels⟩

theorem isOneLine_text (hset : ∀ label ∈ set.labels, IsOneLine label) : IsOneLine set.text := by
  have hexpected : ∀ label ∈ set.expected, IsOneLine label :=
    fun label hlabel => hset label (List.mem_of_mem_filter hlabel)
  have hnotExpected : ∀ label ∈ set.notExpected, IsOneLine label :=
    fun label hlabel => (isOneLine_append.mp (hset _ (mem_notExpected_iff.mp hlabel))).2
  by_cases hempty : set.labels = []
  · have hunreported : set.text = "expected <unreported>" := by
      simp [text, expected, notExpected, hempty]
    rw [hunreported]
    decide
  · rw [text_eq_clauses set hempty]
    refine IsOneLine.intercalate (by decide) fun part hpart => ?_
    rcases List.mem_append.mp hpart with hclause | hclause
    · exact isOneLine_of_mem_clause (by decide) hexpected hclause
    · exact isOneLine_of_mem_clause (by decide) hnotExpected hclause

end ExpectedSet

/-! ## Reports -/

/-- What is noted as a label: a terminal, or a rule by its diagnosis, which bears the mark
where the rule must not match. -/
inductive IsReportLabel : String → Prop
  | terminal (terminal : Terminal) : IsReportLabel terminal.label
  | rule {diagnosis : String} (hdiagnosis : IsOneLine diagnosis) : IsReportLabel diagnosis
  | negatedRule {diagnosis : String} (hdiagnosis : IsOneLine diagnosis) :
      IsReportLabel (Terminal.negationMark ++ diagnosis)

theorem IsReportLabel.isOneLine {label : String} (hlabel : IsReportLabel label) :
    IsOneLine label := by
  cases hlabel with
  | terminal terminal => exact terminal.isOneLine_label
  | rule hdiagnosis => exact hdiagnosis
  | negatedRule hdiagnosis =>
      have hmark : IsOneLine Terminal.negationMark := by decide
      exact isOneLine_append.mpr ⟨hmark, hdiagnosis⟩

theorem ParseError.isOneLine_text {error : ParseError} (hlocation : IsOneLine error.location)
    (hlabels : ∀ label ∈ error.expected.labels, IsOneLine label) : IsOneLine error.text := by
  have hcolon : IsOneLine ": " := by decide
  rw [text, isOneLine_append, isOneLine_append]
  exact ⟨⟨hlocation, hcolon⟩, ExpectedSet.isOneLine_text hlabels⟩

/-- A failure inside the source has a report, and whatever the source quotes there and the
terminals ask for, the report is one line. -/
theorem Failure.report_is_one_line {source : Source} {failure : Failure} {offset : Nat}
    (hposition : failure.position = some offset) (hinside : offset ≤ source.length)
    (hlabels : ∀ label ∈ failure.labels, IsReportLabel label) :
    ∃ error, ParseError.ofFailure? source failure = some error ∧ error.offset = offset ∧
      IsOneLine error.text ∧ '\n' ∉ error.text.toList ∧ '\r' ∉ error.text.toList := by
  have htext : IsOneLine (source.reported offset failure.labels).text := by
    refine ParseError.isOneLine_text (Source.isOneLine_located offset _) fun label hlabel => ?_
    exact (hlabels label (ExpectedSet.mem_ofLabels.mp hlabel)).isOneLine
  exact ⟨_, Source.ofFailure?_eq hposition hinside, rfl, htext, htext.not_mem (by decide),
    htext.not_mem (by decide)⟩

/-- Line breaks before the position and in the labels of a character and of a text. -/
theorem Failure.report_is_one_line_breaks :
    let source := Source.ofText "a\n\u0085b"
    let failure : Failure := ⟨some 3, [(Terminal.character '\n').label,
      (Terminal.otherText "\r\t").label, Terminal.negationMark ++ "sum"]⟩
    3 ≤ source.length ∧ (∀ label ∈ failure.labels, IsReportLabel label) ∧
    ∃ error, ParseError.ofFailure? source failure = some error ∧ error.offset = 3 ∧
      IsOneLine error.text ∧ '\n' ∉ error.text.toList ∧ '\r' ∉ error.text.toList := by
  intro source failure
  have hinside : 3 ≤ source.length := by decide +kernel
  have hsum : IsOneLine "sum" := by decide
  have hlabels : ∀ label ∈ failure.labels, IsReportLabel label := by
    intro label hlabel
    simp only [failure, List.mem_cons, List.not_mem_nil, or_false] at hlabel
    rcases hlabel with rfl | rfl | rfl
    · exact .terminal (.character '\n')
    · exact .terminal (.otherText "\r\t")
    · exact .negatedRule hsum
  exact ⟨hinside, hlabels, report_is_one_line rfl hinside hlabels⟩

example : (ParseError.ofFailure? (.ofText "a\nb") ⟨some 2, [(Terminal.character '\n').label]⟩).map
    ParseError.text = some "after 'a\\n': expected '\\n'" := by
  decide +kernel

end Packrat
