import Packrat.Proofs.RootGist
import Packrat.Proofs.SumValues

/-!
# Parses of written sums

The grammar of sums reads a number, then signed numbers as long as they come, and then wants
the end of the text.  A sum parses to a phrase with its value; any other text is reported where
it stops being the beginning of a sum.
-/

namespace Packrat

namespace Source

variable {source : Source} {position : Nat} {shown after : List Char}

/-- What is left behind the characters in front of a position. -/
theorem rest_of_append (hrest : source.rest position = shown ++ after) :
    source.rest (position + shown.length) = after := by
  rw [rest, ← List.drop_drop, ← rest, hrest, List.drop_left]

theorem stop_le_length (hrest : source.rest position = shown ++ after) (hsome : shown ≠ []) :
    position + shown.length ≤ source.length := by
  have hlength := source.length_rest position
  have hpositive := List.length_pos_iff.mpr hsome
  rw [hrest, List.length_append] at hlength
  omega

theorem slice?_of_append (hrest : source.rest position = shown ++ after) (hsome : shown ≠ []) :
    source.slice? position (position + shown.length) = some (String.ofList shown) := by
  have hbetween : source.between position (position + shown.length) = shown := by
    rw [between, ← rest, hrest, Nat.add_sub_cancel_left, List.take_left]
  rw [slice?_eq (Nat.le_add_right _ _) (stop_le_length hrest hsome), hbetween]

end Source

/-! ## The grammar -/

/-- The diagnosis of the alternative for a sign. -/
def Sign.diagnosis : Sign → String
  | .plus => "Sum_1"
  | .minus => "Sum_2"

namespace Grammar

def signedNumber (sign : Sign) : Expression :=
  .sequence (.plain sign.diagnosis) [.terminal (.character sign.character), .rule "Number"]

/-- A number with either sign. -/
def signedNumberOfEither : Expression :=
  .sequence (.plain "Sum_0") [.choice [signedNumber .plus, signedNumber .minus]]

/-- Sums of memoized numbers up to the end of the text. -/
def writtenSums : Grammar :=
  .ofDrafts
    [⟨"Sum", "Sum", false,
        [.rule "Number", .star signedNumberOfEither, .terminal .endOfText]⟩,
      ⟨"Number", "Number", true, [.plus (.terminal (.between '0' '9'))]⟩]
    []

def sumActions : Semantics SemanticValue :=
  (Semantics.empty.on "Number" StockAction.number.run).on "Sum" StockAction.sum.run

theorem rule?_number : writtenSums.rule? "Number" =
    some ⟨"Number", "Number", some 0, [.plus (.terminal (.between '0' '9'))]⟩ := rfl

theorem rule?_sum : writtenSums.rule? "Sum" =
    some ⟨"Sum", "Sum", none,
      [.rule "Number", .star signedNumberOfEither, .terminal .endOfText]⟩ := rfl

theorem action?_number : sumActions.action? "Number" = some StockAction.number.run := rfl

theorem action?_sum : sumActions.action? "Sum" = some StockAction.sum.run := rfl

variable {source : Source} {position : Nat} {after : List Char}

/-! ## Numbers -/

section Digits

variable {Value : Type} {grammar : Grammar} {semantics : Semantics Value}

theorem takes_digit {digit : Char} (hdigit : digit.isDigit = true) (rest : List Char) :
    (Terminal.between '0' '9').Takes (digit :: rest) 1 := by
  have hrange : '0' ≤ digit ∧ digit ≤ '9' := by
    simpa [Char.isDigit, Char.le_def] using hdigit
  exact .between rest hrange.1 hrange.2

theorem not_takes_digit {rest : List Char} (hdigit : NoDigitAhead rest) (length : Nat) :
    ¬ (Terminal.between '0' '9').Takes rest length := by
  intro htakes
  cases htakes with
  | @between _ _ found others hfirst hlast =>
      have hfound : found.isDigit = true := by
        simpa [Char.isDigit, Char.le_def] using And.intro hfirst hlast
      rw [hdigit found rfl] at hfound
      contradiction

theorem isLeaf_ofTerminal {start stop : Nat} (hle : start ≤ stop) (hstop : stop ≤ source.length) :
    (Phrase.ofTerminal start stop : Phrase Value).IsLeaf source :=
  ⟨rfl, hle, hstop, rfl⟩

theorem ComesTo.digit {digit : Char} (hdigit : digit.isDigit = true)
    (hrest : source.rest position = digit :: after) :
    grammar.ComesTo source semantics (.terminal (.between '0' '9')) position
      (.taking position (position + 1)) := by
  have hend : Terminal.between '0' '9' ≠ .endOfText := nofun
  exact .taking (hrest ▸ takes_digit hdigit after) hend

theorem ComesTo.character {wanted : Char} (hrest : source.rest position = wanted :: after) :
    grammar.ComesTo source semantics (.terminal (.character wanted)) position
      (.taking position (position + 1)) := by
  have hend : Terminal.character wanted ≠ .endOfText := nofun
  exact .taking (hrest ▸ .character wanted after) hend

/-- A repetition takes all digits that come next, and fails once behind the last of them. -/
theorem ComesTo.digits {digits : List Char} (hdigits : ∀ digit ∈ digits, digit.isDigit = true)
    (hafter : NoDigitAhead after) (hrest : source.rest position = digits ++ after) :
    ∃ parts, grammar.ComesTo source semantics (.star (.terminal (.between '0' '9'))) position
        ⟨true, position + digits.length, parts, position + digits.length + 1⟩ ∧
      Tiles source parts position (position + digits.length) := by
  induction digits generalizing position with
  | nil =>
      have hfails : grammar.ComesTo source semantics (.terminal (.between '0' '9')) position
          (.failing position) :=
        .failing (hrest ▸ not_takes_digit hafter)
      exact ⟨[], hfails.starEnds (.inl rfl), .nil position⟩
  | cons digit others ih =>
      have hothers : ∀ other ∈ others, other.isDigit = true := fun other hother =>
        hdigits other (List.mem_cons_of_mem digit hother)
      have hfront : source.rest position = [digit] ++ (others ++ after) := hrest
      have hnext : source.rest (position + 1) = others ++ after := Source.rest_of_append hfront
      obtain ⟨parts, hagain, htiles⟩ := ih hothers hnext
      have hstop : position + 1 + others.length = position + (digit :: others).length := by
        rw [List.length_cons]
        omega
      rw [hstop] at hagain htiles
      have hleaf : (Phrase.ofTerminal position (position + 1) : Phrase Value).IsLeaf source :=
        isLeaf_ofTerminal (Nat.le_succ position)
          (Source.stop_le_length hfront (List.cons_ne_nil digit []))
      have hwhole := (ComesTo.digit (hdigits digit List.mem_cons_self) hfront).starAdvances rfl
        (Nat.succ_ne_self position) hagain
      refine ⟨.ofTerminal position (position + 1) :: parts, ?_, .cons hleaf htiles⟩
      simpa only [Gist.followedBy, Gist.taking, Nat.zero_max, List.singleton_append] using hwhole

end Digits

/-- A numeral is taken by the rule of numbers, which hands over one phrase with its word. -/
theorem number_comesTo (numeral : Numeral) (hafter : NoDigitAhead after)
    (hrest : source.rest position = numeral.digits ++ after) :
    ∃ operand, writtenSums.ComesTo source sumActions (.rule "Number") position
        ⟨true, position + numeral.digits.length, [operand],
          position + numeral.digits.length + 1⟩ ∧
      Tiles source [operand] position (position + numeral.digits.length) ∧
      operand.value = some (.int numeral.word) := by
  obtain ⟨leading, others, hdigits, hleading⟩ := numeral.exists_cons
  have hothers : ∀ other ∈ others, other.isDigit = true := fun other hother =>
    numeral.isDigit_of_mem other (hdigits ▸ List.mem_cons_of_mem leading hother)
  have hfront : source.rest position = [leading] ++ (others ++ after) := by
    rw [hrest, hdigits]
    rfl
  obtain ⟨parts, hagain, htiles⟩ := ComesTo.digits hothers hafter (Source.rest_of_append hfront)
  have hstop : position + 1 + others.length = position + numeral.digits.length := by
    rw [hdigits, List.length_cons]
    omega
  rw [List.length_singleton, hstop] at hagain htiles
  have hbound := Source.stop_le_length hrest numeral.digits_ne_nil
  have hleaf : (Phrase.ofTerminal position (position + 1) : Phrase SemanticValue).IsLeaf source :=
    isLeaf_ofTerminal (Nat.le_succ position)
      (Source.stop_le_length hfront (List.cons_ne_nil leading []))
  have htext := Source.slice?_of_append hrest numeral.digits_ne_nil
  have hbody := AllComeTo.singleton ((ComesTo.digit hleading hfront).plus rfl hagain) rfl
  simp only [Gist.followedBy, Gist.taking, Nat.zero_max, List.singleton_append] at hbody
  obtain ⟨failure, hnumber⟩ := ComesTo.rule rule?_number rfl action?_number hbody fun failure =>
    number_run_of_text htext (.cons hleaf htiles) hbound
  refine ⟨_, hnumber, ?_, rfl⟩
  exact .of_isLeaf ⟨rfl, Nat.le_add_right _ _, hbound, rfl⟩

/-- Where no digit comes next there is no number. -/
theorem number_fails (hdigit : NoDigitAhead (source.rest position)) :
    writtenSums.ComesTo source sumActions (.rule "Number") position (.failing position) := by
  have hbody : writtenSums.ComesTo source sumActions (.plus (.terminal (.between '0' '9')))
      position (.failing position) :=
    (ComesTo.failing (not_takes_digit hdigit)).plusFails rfl
  have hall := AllComeTo.fails [] hbody rfl
  exact .ruleFails rule?_number rfl hall rfl

/-! ## Signed numbers -/

theorem not_takes_sign {sign : Sign} {rest : List Char} (hsign : rest.head? ≠ some sign.character)
    (length : Nat) : ¬ (Terminal.character sign.character).Takes rest length := by
  intro htakes
  cases htakes
  exact hsign rfl

/-- A term is taken as a number with its sign. -/
theorem signedNumber_comesTo (term : SignedNumeral) (hafter : NoDigitAhead after)
    (hrest : source.rest position = term.text ++ after) :
    ∃ parts, writtenSums.ComesTo source sumActions (signedNumber term.sign) position
        ⟨true, position + term.text.length, parts, position + term.text.length + 1⟩ ∧
      Tiles source parts position (position + term.text.length) ∧
      ShowTerms source [term] parts := by
  have hfront : source.rest position =
      [term.sign.character] ++ (term.numeral.digits ++ after) := hrest
  have hsome := List.cons_ne_nil term.sign.character []
  have hnext := Source.rest_of_append hfront
  obtain ⟨operand, hnumber, htiles, hvalue⟩ := number_comesTo term.numeral hafter hnext
  have hstop : position + [term.sign.character].length + term.numeral.digits.length =
      position + term.text.length := by
    rw [SignedNumeral.text, List.length_singleton, List.length_cons]
    omega
  rw [hstop] at hnumber htiles
  have hleaf : (Phrase.ofTerminal position (position + 1) : Phrase SemanticValue).IsLeaf source :=
    isLeaf_ofTerminal (Nat.le_succ position) (Source.stop_le_length hfront hsome)
  have hparts := AllComeTo.cons (.character hfront) rfl (.singleton hnumber rfl)
  have hsequence : writtenSums.ComesTo source sumActions (signedNumber term.sign) position _ :=
    .sequence rfl hparts rfl
  simp only [Gist.followedBy, Gist.taking, Nat.zero_max, List.singleton_append] at hsequence
  refine ⟨_, hsequence, ?_, ?_⟩
  · exact .cons hleaf htiles
  · exact .cons (Source.slice?_of_append hfront hsome) hvalue .nil

/-- Without its sign, a signed number fails where it begins. -/
theorem signedNumber_misses {sign : Sign}
    (hsign : (source.rest position).head? ≠ some sign.character) :
    writtenSums.ComesTo source sumActions (signedNumber sign) position (.failing position) := by
  have hmissing : writtenSums.ComesTo source sumActions (.terminal (.character sign.character))
      position (.failing position) :=
    .failing (not_takes_sign hsign)
  exact .sequenceFails rfl (.fails [.rule "Number"] hmissing rfl) rfl

/-- With its sign and no digit behind it, a signed number fails behind the sign. -/
theorem signedNumber_fails (sign : Sign) (hterm : NoTermAhead (source.rest position)) :
    writtenSums.ComesTo source sumActions (signedNumber sign) position
      ⟨false, position, [], position + sign.countAhead (source.rest position) + 1⟩ := by
  by_cases hsign : (source.rest position).head? = some sign.character
  · obtain ⟨after, hrest⟩ := List.head?_eq_some_iff.mp hsign
    have hfront : source.rest position = [sign.character] ++ after := hrest
    have hnext : source.rest (position + 1) = after := Source.rest_of_append hfront
    have hnumber := number_fails (hnext ▸ hterm sign after hrest)
    have hparts := AllComeTo.cons (.character hrest) rfl (.fails [] hnumber rfl)
    rw [Sign.countAhead, if_pos hsign]
    have hsequence : writtenSums.ComesTo source sumActions (signedNumber sign) position _ :=
      .sequenceFails rfl hparts rfl
    simpa only [Gist.followedBy, Gist.taking, Gist.failing, Nat.zero_max] using hsequence
  · rw [Sign.countAhead, if_neg hsign]
    exact signedNumber_misses hsign

/-- A term is taken with either sign.  Where the other sign has failed before, that is where the
term begins. -/
theorem signedNumberOfEither_comesTo (term : SignedNumeral) (hafter : NoDigitAhead after)
    (hrest : source.rest position = term.text ++ after) :
    ∃ parts, writtenSums.ComesTo source sumActions signedNumberOfEither position
        ⟨true, position + term.text.length, parts, position + term.text.length + 1⟩ ∧
      Tiles source parts position (position + term.text.length) ∧
      ShowTerms source [term] parts := by
  obtain ⟨parts, hsigned, htiles, hshow⟩ := signedNumber_comesTo term hafter hrest
  refine ⟨parts, ?_, htiles, hshow⟩
  have hany : writtenSums.AnyComesTo source sumActions
      [signedNumber .plus, signedNumber .minus] position
      ⟨true, position + term.text.length, parts, position + term.text.length + 1⟩ := by
    cases hsign : term.sign with
    | plus =>
        rw [hsign] at hsigned
        exact .matches _ hsigned rfl
    | minus =>
        rw [hsign] at hsigned
        have hplus : (source.rest position).head? ≠ some Sign.plus.character := by
          rw [hrest, SignedNumeral.text, hsign]
          exact fun hhead => absurd (Option.some.inj hhead) (by decide)
        have hwhole := AnyComesTo.later (signedNumber_misses hplus) rfl (.matches [] hsigned rfl)
        have hfurther : max (position + 1) (position + term.text.length + 1) =
            position + term.text.length + 1 := by
          omega
        simpa only [Gist.followedBy, Gist.failing, List.nil_append, hfurther] using hwhole
  exact .sequence rfl (.singleton (.choice hany) rfl) rfl

theorem signedNumberOfEither_fails (hterm : NoTermAhead (source.rest position)) :
    writtenSums.ComesTo source sumActions signedNumberOfEither position
      ⟨false, position, [], position + signsAhead (source.rest position) + 1⟩ := by
  have hany := AnyComesTo.later (signedNumber_fails .plus hterm) rfl
    (.later (signedNumber_fails .minus hterm) rfl (.nil position))
  have hfurthest : max (position + Sign.plus.countAhead (source.rest position) + 1)
      (max (position + Sign.minus.countAhead (source.rest position) + 1) 0) =
        position + signsAhead (source.rest position) + 1 := by
    rw [signsAhead]
    omega
  simp only [Gist.followedBy, Gist.still, List.nil_append, hfurthest] at hany
  exact .sequenceFails rfl (.fails [] (.choice hany) rfl) rfl

/-! ## Sums -/

/-- The repetition takes all terms that come next.  Its failures reach to the first character
that nothing can begin with, which is behind a sign if one is left over. -/
theorem terms_comeTo (terms : List SignedNumeral) (hdigit : NoDigitAhead after)
    (hterm : NoTermAhead after)
    (hrest : source.rest position = terms.flatMap SignedNumeral.text ++ after) :
    let stop := position + (terms.flatMap SignedNumeral.text).length
    ∃ parts, writtenSums.ComesTo source sumActions (.star signedNumberOfEither) position
        ⟨true, stop, parts, stop + signsAhead after + 1⟩ ∧
      Tiles source parts position stop ∧ ShowTerms source terms parts := by
  induction terms generalizing position with
  | nil =>
      have hnext : source.rest position = after := hrest
      have hfails := signedNumberOfEither_fails (hnext ▸ hterm)
      rw [hnext] at hfails
      exact ⟨[], hfails.starEnds (.inl rfl), .nil position, .nil⟩
  | cons term others ih =>
      intro stop
      have hfront : source.rest position =
          term.text ++ (others.flatMap SignedNumeral.text ++ after) := by
        rw [hrest, List.flatMap_cons, List.append_assoc]
      have hnext := Source.rest_of_append hfront
      have hstop : position + term.text.length +
          (others.flatMap SignedNumeral.text).length = stop := by
        simp only [stop, List.flatMap_cons, List.length_append]
        omega
      obtain ⟨front, hfirst, hfrontTiles, hfrontShow⟩ :=
        signedNumberOfEither_comesTo term (.terms others hdigit) hfront
      obtain ⟨parts, hagain, htiles, hshow⟩ := ih hnext
      simp only [hstop] at hagain htiles
      have hlength : 0 < term.text.length := Nat.succ_pos _
      have hwhole := hfirst.starAdvances rfl (show position + term.text.length ≠ position by omega)
        hagain
      have hfurther : max (position + term.text.length + 1) (stop + signsAhead after + 1) =
          stop + signsAhead after + 1 := by
        omega
      simp only [Gist.followedBy, hfurther] at hwhole
      exact ⟨front ++ parts, hwhole, hfrontTiles.append htiles, hfrontShow.append hshow⟩

/-- The body of the rule of sums takes the sum in front of it, and then the end of the text has
its say. -/
theorem sum_body_comesTo (sum : WrittenSum) (hdigit : NoDigitAhead after)
    (hterm : NoTermAhead after) (hrest : source.rest 0 = sum.text ++ after)
    {ending : Gist SemanticValue}
    (hending : writtenSums.AllComeTo source sumActions [.terminal .endOfText] sum.text.length
      ending) :
    ∃ number parts, writtenSums.AllComeTo source sumActions
        [.rule "Number", .star signedNumberOfEither, .terminal .endOfText] 0
        ⟨ending.matched, ending.stop, number :: parts ++ ending.parts,
          max (sum.text.length + signsAhead after + 1) ending.reach⟩ ∧
      Tiles source (number :: parts) 0 sum.text.length ∧
      number.value = some (.int sum.first.word) ∧ ShowTerms source sum.terms parts := by
  have hfront : source.rest 0 = sum.first.digits ++
      (sum.terms.flatMap SignedNumeral.text ++ after) := by
    rw [hrest, WrittenSum.text, List.append_assoc]
  obtain ⟨number, hnumber, hnumberTiles, hvalue⟩ :=
    number_comesTo sum.first (.terms sum.terms hdigit) hfront
  obtain ⟨parts, hterms, htiles, hshow⟩ :=
    terms_comeTo sum.terms hdigit hterm (Source.rest_of_append hfront)
  have hstop : 0 + sum.first.digits.length + (sum.terms.flatMap SignedNumeral.text).length =
      sum.text.length := by
    rw [WrittenSum.text, List.length_append]
    omega
  simp only [hstop] at hterms htiles
  refine ⟨number, parts, ?_, hnumberTiles.append htiles, hvalue, hshow⟩
  have hall := AllComeTo.cons hnumber rfl (.cons hterms rfl hending)
  have hfurther : max (0 + sum.first.digits.length + 1)
      (max (sum.text.length + signsAhead after + 1) ending.reach) =
        max (sum.text.length + signsAhead after + 1) ending.reach := by
    omega
  simpa only [Gist.followedBy, hfurther, List.cons_append, List.nil_append] using hall

/-- A sum with numbers and totals in range comes to a phrase over all of it, with its value. -/
theorem sum_comesTo {sum : WrittenSum} (hfits : sum.Fits) (htext : source.rest 0 = sum.text) :
    ∃ failure reach, writtenSums.ComesTo source sumActions (.rule "Sum") 0
      ⟨true, sum.text.length, [⟨"Sum", "Sum", 0, sum.text.length, true, [],
        some (.int (Int64.ofInt sum.value)), failure⟩], reach⟩ := by
  have hrest : source.rest 0 = sum.text ++ [] := htext.trans (List.append_nil _).symm
  have hlength := Source.rest_of_append hrest
  rw [Nat.zero_add] at hlength
  have hending : writtenSums.AllComeTo source sumActions [.terminal .endOfText] sum.text.length
      (.still true sum.text.length) :=
    .singleton (.endOfText hlength) rfl
  obtain ⟨number, parts, hbody, htiles, hvalue, hshow⟩ :=
    sum_body_comesTo sum .nil .nil hrest hending
  have hbound := Source.stop_le_length hrest sum.text_ne_nil
  rw [Nat.zero_add] at hbound
  simp only [Gist.still, List.append_nil] at hbody
  obtain ⟨failure, hsum⟩ := ComesTo.rule rule?_sum rfl action?_sum hbody fun failure =>
    sum_run_of_showTerms hfits rfl hvalue hshow htiles hbound
  exact ⟨failure, _, hsum⟩

/-- With something else behind it, a sum fails where that something stops being a term. -/
theorem sum_fails (sum : WrittenSum) (hdigit : NoDigitAhead after) (hterm : NoTermAhead after)
    (hsome : after ≠ []) (hrest : source.rest 0 = sum.text ++ after) :
    writtenSums.ComesTo source sumActions (.rule "Sum") 0
      ⟨false, 0, [], sum.text.length + signsAhead after + 1⟩ := by
  have hnext := Source.rest_of_append hrest
  rw [Nat.zero_add] at hnext
  have hmissing : ∀ length, ¬ Terminal.endOfText.Takes (source.rest sum.text.length) length := by
    intro length htakes
    rw [hnext] at htakes
    cases htakes
    exact hsome rfl
  have hending : writtenSums.AllComeTo source sumActions [.terminal .endOfText] sum.text.length
      (.failing sum.text.length) :=
    .fails [] (.failing hmissing) rfl
  obtain ⟨number, parts, hbody, _⟩ := sum_body_comesTo sum hdigit hterm hrest hending
  have hfurther : max (sum.text.length + signsAhead after + 1) (sum.text.length + 1) =
      sum.text.length + signsAhead after + 1 := by
    omega
  simp only [Gist.failing, hfurther] at hbody
  exact .ruleFails rule?_sum rfl hbody rfl

/-- Without a digit at the start there is no sum. -/
theorem sum_fails_at_start (hdigit : NoDigitAhead (source.rest 0)) :
    writtenSums.ComesTo source sumActions (.rule "Sum") 0 ⟨false, 0, [], 1⟩ := by
  have hbody := AllComeTo.fails [.star signedNumberOfEither, .terminal .endOfText]
    (number_fails hdigit) rfl
  exact .ruleFails rule?_sum rfl hbody rfl

/-! ## Parses -/

/-- What is no sum fails at the end of its longest prefix that can be continued to one. -/
theorem exists_sum_fails (hlanguage : source.text.toList ∉ WrittenSum.language) :
    ∃ offset ≤ source.length,
      IsGreatest (WrittenSum.continuable source.text.toList) offset ∧
        writtenSums.ComesTo source sumActions (.rule "Sum") 0 ⟨false, 0, [], offset + 1⟩ := by
  have hstart : source.rest 0 = source.text.toList := rfl
  by_cases hdigit : NoDigitAhead source.text.toList
  · exact ⟨0, Nat.zero_le _, WrittenSum.isGreatest_continuable_zero hdigit,
      sum_fails_at_start (hstart ▸ hdigit)⟩
  · obtain ⟨sum, after, htext, hafter, hterm⟩ := WrittenSum.exists_reading hdigit
    have hsome : after ≠ [] := by
      rintro rfl
      rw [htext, List.append_nil] at hlanguage
      exact hlanguage sum.mem_language
    have hgreatest := sum.isGreatest_continuable hafter hterm
    rw [← htext] at hgreatest
    refine ⟨_, ?_, hgreatest, sum_fails sum hafter hterm hsome (hstart.trans htext)⟩
    rw [source.length_eq]
    exact hgreatest.1.1

/-- Sums are evaluated, and all other texts are reported where they go wrong.

For every text, and with memory of any capacity, a parse ends as follows.  If the text is that of
a sum whose numbers and whose totals from the left to the right are all in the range of a word,
the answer is a phrase of the rule `Sum` over the whole text, and its value is that of the sum.
If the text is not in the language `[0-9]+([+-][0-9]+)*` (`WrittenSum.mem_language_iff`), the
answer is an error that names something that was expected, and its offset is the length of the
longest prefix of the text that can be continued to a text of the language. -/
theorem sums_are_evaluated_or_located (text : String) :
    (∀ sum : WrittenSum, sum.text = text.toList → sum.Fits →
      writtenSums.ParsesTo (.ofText text) sumActions fun answer =>
        ∃ phrase total, answer = .ok phrase ∧ phrase.name = "Sum" ∧ phrase.success = true ∧
          phrase.start = 0 ∧ phrase.stop = text.toList.length ∧
          phrase.value = some (.int total) ∧ total.toInt = sum.value) ∧
    (text.toList ∉ WrittenSum.language →
      writtenSums.ParsesTo (.ofText text) sumActions fun answer =>
        ∃ error, answer = .error error ∧ error.expected.isEmpty = false ∧
          IsGreatest (WrittenSum.continuable text.toList) error.offset) := by
  have hexclusive : writtenSums.tablesInUse.Nodup := by decide
  constructor
  · intro sum htext hfits
    have hrest : (Source.ofText text).rest 0 = sum.text := htext.symm
    obtain ⟨failure, reach, hsum⟩ := sum_comesTo hfits hrest
    apply (hsum.parsesTo_phrase hexclusive rfl).imp
    rintro _ rfl
    refine ⟨_, _, rfl, rfl, rfl, rfl, ?_, rfl, ?_⟩
    · rw [← htext]
    · exact (hfits.totals sum.value sum.value_mem_totals).toInt_ofInt
  · intro hlanguage
    have hother : (Source.ofText text).text.toList ∉ WrittenSum.language := hlanguage
    obtain ⟨offset, hoffset, hgreatest, hfails⟩ := exists_sum_fails hother
    apply (hfails.parsesTo_error hexclusive (by decide) rfl hoffset).imp
    rintro _ ⟨error, rfl, rfl, hexpected⟩
    exact ⟨error, rfl, hexpected, hgreatest⟩

/-- `7-10+2` is worth minus one, and `7-x` is no sum. -/
theorem sums_are_evaluated_or_located_below_zero :
    let sum : WrittenSum :=
      ⟨⟨['7'], by simp, by simp⟩,
        [⟨.minus, ⟨['1', '0'], by simp, by simp⟩⟩, ⟨.plus, ⟨['2'], by simp, by simp⟩⟩]⟩
    sum.text = "7-10+2".toList ∧ sum.Fits ∧ sum.value = -1 ∧
      (writtenSums.ParsesTo (.ofText "7-10+2") sumActions fun answer =>
        ∃ phrase total, answer = .ok phrase ∧ phrase.name = "Sum" ∧ phrase.success = true ∧
          phrase.start = 0 ∧ phrase.stop = 6 ∧ phrase.value = some (.int total) ∧
          total.toInt = -1) ∧
      "7-x".toList ∉ WrittenSum.language ∧
      writtenSums.ParsesTo (.ofText "7-x") sumActions fun answer =>
        ∃ error, answer = .error error ∧ error.expected.isEmpty = false ∧
          IsGreatest (WrittenSum.continuable ['7', '-', 'x']) error.offset := by
  intro sum
  have htext : sum.text = "7-10+2".toList := by decide
  have hvalue : sum.value = -1 := by decide
  have hfits : sum.Fits := by
    refine ⟨⟨by decide, by decide⟩, ?_, ?_⟩
    · intro term hterm
      simp only [sum, List.mem_cons, List.not_mem_nil, or_false] at hterm
      rcases hterm with rfl | rfl <;> exact ⟨by decide, by decide⟩
    · intro total htotal
      have htotals : sum.totals = [7, -3, -1] := by decide
      simp only [htotals, List.mem_cons, List.not_mem_nil, or_false] at htotal
      rcases htotal with rfl | rfl | rfl <;> exact ⟨by decide, by decide⟩
  have hother : "7-x".toList ∉ WrittenSum.language := by
    intro hlanguage
    obtain ⟨other, hreading⟩ := WrittenSum.mem_language_iff.mp hlanguage
    have hmember : 'x' ∈ other.text := by
      rw [hreading]
      decide
    rcases other.isDigit_or_sign_of_mem hmember with hdigit | ⟨sign, hsign⟩
    · contradiction
    · cases sign <;> contradiction
  have hsum := (sums_are_evaluated_or_located "7-10+2").1 sum htext hfits
  rw [hvalue] at hsum
  exact ⟨htext, hfits, hvalue, hsum, hother, (sums_are_evaluated_or_located "7-x").2 hother⟩

end Grammar

end Packrat
