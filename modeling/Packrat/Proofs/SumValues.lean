import Packrat.Action.Stock
import Packrat.Proofs.TiledTexts
import Packrat.Proofs.WrittenSums

/-!
# The values of written sums

The action of a number reads its numeral, and the action of a sum adds up operands that
alternate with signs.  They compute with words that wrap, and a word shows the number itself
where the number is in range.
-/

namespace Packrat

/-! ## Numerals -/

namespace Numeral

theorem digit?_of_isDigit {digit : Char} (hdigit : digit.isDigit = true) :
    Decimal.digit? digit = some (digit.toNat - '0'.toNat) := by
  have hrange : '0' ≤ digit ∧ digit ≤ '9' := by
    simpa [Char.isDigit, Char.le_def] using hdigit
  rw [Decimal.digit?, if_pos hrange]

/-- Each further digit moves the leading ones up by one place. -/
theorem magnitude?_eq {digits : List Char} (hdigits : ∀ digit ∈ digits, digit.isDigit = true)
    (leading : Nat) :
    Decimal.magnitude? leading digits =
      some (leading * 10 ^ digits.length +
        Nat.ofDigits 10 (digits.reverse.map fun digit => digit.toNat - '0'.toNat)) := by
  induction digits generalizing leading with
  | nil => simp [Decimal.magnitude?]
  | cons digit rest ih =>
      have hfirst := digit?_of_isDigit (hdigits digit List.mem_cons_self)
      have hrest := ih fun other hother => hdigits other (List.mem_cons_of_mem digit hother)
      simp only [Decimal.magnitude?, hfirst, Option.bind_eq_bind, Option.bind_some, hrest,
        List.reverse_cons, List.map_append, List.map_singleton, Nat.ofDigits_append,
        Nat.ofDigits_singleton, List.length_map, List.length_reverse, List.length_cons, pow_succ]
      congr 1
      ring

theorem integer?_eq (numeral : Numeral) :
    Decimal.integer? numeral.digits = some (numeral.value : Int) := by
  obtain ⟨leading, others, hdigits, hleading⟩ := numeral.exists_cons
  have hplus : leading ≠ '+' := by
    rintro rfl
    contradiction
  have hminus : leading ≠ '-' := by
    rintro rfl
    contradiction
  have hmagnitude := magnitude?_eq numeral.isDigit_of_mem 0
  rw [Nat.zero_mul, Nat.zero_add] at hmagnitude
  have hunsigned : Decimal.integer? numeral.digits =
      (Decimal.magnitude? 0 numeral.digits).map Int.ofNat := by
    rw [hdigits]
    simp [Decimal.integer?, hplus, hminus]
  rw [hunsigned, hmagnitude]
  rfl

/-- The word that the action of a number makes of the numeral. -/
def word (numeral : Numeral) : Int64 :=
  StockAction.numberOfText (String.ofList numeral.digits)

theorem word_of_fits {numeral : Numeral} (hfits : FitsWord numeral.value) :
    numeral.word = Int64.ofInt numeral.value := by
  have hrange : Int64.minValue.toInt ≤ numeral.value ∧
      numeral.value ≤ Int64.maxValue.toInt := hfits
  rw [word, StockAction.numberOfText, Decimal.word?, String.toList_ofList, numeral.integer?_eq,
    Option.bind_some, if_pos hrange]
  rfl

end Numeral

theorem FitsWord.toInt_ofInt {number : Int} (hfits : FitsWord number) :
    (Int64.ofInt number).toInt = number := by
  have hleast : Int64.minValue.toInt = -2 ^ 63 := rfl
  have hgreatest : Int64.maxValue.toInt = 2 ^ 63 - 1 := rfl
  obtain ⟨hlower, hupper⟩ := hfits
  apply Int64.toInt_ofInt_of_le <;> omega

/-! ## Readable phrases -/

variable {Value : Type} {source : Source}

theorem Phrase.IsLeaf.isReadable {leaf : Phrase Value} (hleaf : leaf.IsLeaf source) :
    leaf.isReadable source = true := by
  obtain ⟨_, hle, hstop, hchildren⟩ := hleaf
  cases leaf
  simp only at hle hstop hchildren
  simp [hchildren, Phrase.isReadable, Phrase.areReadable, Source.slice?_eq hle hstop]

theorem Tiles.areReadable {parts : List (Phrase Value)} {start stop : Nat}
    (htiles : Tiles source parts start stop) : Phrase.areReadable source parts = true := by
  induction htiles with
  | nil => rfl
  | cons hleaf _ ih =>
      rw [Phrase.areReadable, hleaf.isReadable, ih]
      rfl

/-- A phrase with parts that lie end to end inside the source can be read. -/
theorem Phrase.isReadable_of_tiles {phrase : Phrase Value}
    (htiles : Tiles source phrase.children phrase.start phrase.stop)
    (hstop : phrase.stop ≤ source.length) : phrase.isReadable source = true := by
  have hle := htiles.start_le_stop
  have hchildren := htiles.areReadable
  cases phrase
  simp only at hle hstop hchildren
  simp [isReadable, hchildren, Source.slice?_eq hle hstop]

/-! ## Sums -/

/-- The parts show the terms: for each of them its sign, and an operand with its value. -/
inductive ShowTerms (source : Source) :
    List SignedNumeral → List (Phrase SemanticValue) → Prop
  | nil : ShowTerms source [] []
  | cons {term : SignedNumeral} {terms : List SignedNumeral}
      {sign operand : Phrase SemanticValue} {parts : List (Phrase SemanticValue)}
      (hsign : sign.text? source = some (String.singleton term.sign.character))
      (hoperand : operand.value = some (.int term.numeral.word))
      (hrest : ShowTerms source terms parts) :
      ShowTerms source (term :: terms) (sign :: operand :: parts)

theorem ShowTerms.append {first second : List SignedNumeral}
    {parts others : List (Phrase SemanticValue)} (hfirst : ShowTerms source first parts)
    (hsecond : ShowTerms source second others) :
    ShowTerms source (first ++ second) (parts ++ others) := by
  induction hfirst with
  | nil => exact hsecond
  | cons hsign hoperand _ ih => exact .cons hsign hoperand ih

theorem sumFrom_of_showTerms {terms : List SignedNumeral} {parts : List (Phrase SemanticValue)}
    (hshow : ShowTerms source terms parts)
    (hfits : ∀ term ∈ terms, FitsWord term.numeral.value) (total : Int) :
    StockAction.sumFrom source (Int64.ofInt total) parts =
      .ok (Int64.ofInt (terms.foldl SignedNumeral.totalAfter total)) := by
  induction hshow generalizing total with
  | nil => rfl
  | @cons term terms sign operand parts hsign hoperand _ ih =>
      have hnumber := Numeral.word_of_fits (hfits term List.mem_cons_self)
      have hrest := ih fun other hother => hfits other (List.mem_cons_of_mem term hother)
      have htotal : (if String.singleton term.sign.character = "+" then
            Int64.ofInt total + Int64.ofInt term.numeral.value
          else Int64.ofInt total - Int64.ofInt term.numeral.value) =
            Int64.ofInt (term.totalAfter total) := by
        rw [SignedNumeral.totalAfter]
        cases term.sign with
        | plus =>
            rw [if_pos (by decide)]
            exact (Int64.ofInt_add _ _).symm
        | minus =>
            rw [if_neg (by decide)]
            exact (Int64.ofInt_sub _ _).symm
      rw [StockAction.sumFrom, hsign, StockAction.integerOf, hoperand, hnumber]
      simp only [StockAction.present, htotal, hrest, List.foldl_cons, bind, Except.bind]

/-- The action of a sum yields its value, as a word. -/
theorem sum_run_of_showTerms {sum : WrittenSum} (hfits : sum.Fits)
    {phrase number : Phrase SemanticValue} {parts : List (Phrase SemanticValue)}
    (hchildren : phrase.children = number :: parts)
    (hnumber : number.value = some (.int sum.first.word))
    (hshow : ShowTerms source sum.terms parts)
    (htiles : Tiles source phrase.children phrase.start phrase.stop)
    (hstop : phrase.stop ≤ source.length) :
    StockAction.sum.run source phrase = .ok (some (.int (Int64.ofInt sum.value))) := by
  have hfirst := Numeral.word_of_fits hfits.first
  have hsum := sumFrom_of_showTerms hshow hfits.numbers sum.first.value
  rw [StockAction.run, if_pos (Phrase.isReadable_of_tiles htiles hstop)]
  simp only [StockAction.result, StockAction.child, hchildren, List.getElem?_cons_zero,
    StockAction.present, StockAction.integerOf, hnumber, hfirst, List.drop_succ_cons,
    List.drop_zero, hsum, bind, Except.bind]
  rfl

/-- The action of a number yields what its text denotes. -/
theorem number_run_of_text {phrase : Phrase SemanticValue} {numeral : Numeral}
    (htext : phrase.text? source = some (String.ofList numeral.digits))
    (htiles : Tiles source phrase.children phrase.start phrase.stop)
    (hstop : phrase.stop ≤ source.length) :
    StockAction.number.run source phrase = .ok (some (.int numeral.word)) := by
  rw [StockAction.run, if_pos (Phrase.isReadable_of_tiles htiles hstop), StockAction.result,
    htext]
  rfl

end Packrat
