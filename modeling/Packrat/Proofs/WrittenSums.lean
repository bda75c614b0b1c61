import Mathlib.Computability.Language
import Mathlib.Data.List.Chain
import Mathlib.Data.List.TakeWhile
import Mathlib.Data.Nat.Digits.Defs
import Mathlib.Order.Bounds.Basic

/-!
# Written sums

A written sum is a numeral and further numerals with a sign in front of each.  The texts of
sums are the regular language `[0-9]+([+-][0-9]+)*`.  A text that is not in this language is
read as far as possible, and what stands behind that decides how much of the text could still
be continued to a text of the language.
-/

namespace Packrat

open Computability

/-! ## Sums and their values -/

/-- One digit or more. -/
structure Numeral where
  digits : List Char
  digits_ne_nil : digits ≠ []
  isDigit_of_mem : ∀ digit ∈ digits, digit.isDigit = true

/-- The number that the digits denote, the last of them counting ones. -/
def Numeral.value (numeral : Numeral) : Nat :=
  Nat.ofDigits 10 (numeral.digits.reverse.map fun digit => digit.toNat - '0'.toNat)

theorem Numeral.exists_cons (numeral : Numeral) :
    ∃ leading others, numeral.digits = leading :: others ∧ leading.isDigit = true := by
  obtain ⟨leading, others, hdigits⟩ := List.exists_cons_of_ne_nil numeral.digits_ne_nil
  refine ⟨leading, others, hdigits, numeral.isDigit_of_mem leading ?_⟩
  rw [hdigits]
  exact List.mem_cons_self

inductive Sign where
  | plus
  | minus
deriving DecidableEq

def Sign.character : Sign → Char
  | .plus => '+'
  | .minus => '-'

/-- The total after one more number with this sign. -/
def Sign.totalAfter : Sign → Int → Int → Int
  | .plus, total, number => total + number
  | .minus, total, number => total - number

/-- A numeral with a sign in front of it. -/
structure SignedNumeral where
  sign : Sign
  numeral : Numeral

def SignedNumeral.text (term : SignedNumeral) : List Char :=
  term.sign.character :: term.numeral.digits

def SignedNumeral.totalAfter (total : Int) (term : SignedNumeral) : Int :=
  term.sign.totalAfter total term.numeral.value

/-- The number lies in the range of a word of 64 bits with sign. -/
def FitsWord (number : Int) : Prop :=
  Int64.minValue.toInt ≤ number ∧ number ≤ Int64.maxValue.toInt

structure WrittenSum where
  first : Numeral
  terms : List SignedNumeral

namespace WrittenSum

def text (sum : WrittenSum) : List Char :=
  sum.first.digits ++ sum.terms.flatMap SignedNumeral.text

/-- The first number, and the total after each of the terms. -/
def totals (sum : WrittenSum) : List Int :=
  sum.terms.scanl SignedNumeral.totalAfter sum.first.value

/-- The numbers added and subtracted from the left to the right. -/
def value (sum : WrittenSum) : Int :=
  sum.terms.foldl SignedNumeral.totalAfter sum.first.value

/-- All numbers and all totals lie in the range of a word. -/
structure Fits (sum : WrittenSum) : Prop where
  first : FitsWord sum.first.value
  numbers : ∀ term ∈ sum.terms, FitsWord term.numeral.value
  totals : ∀ total ∈ sum.totals, FitsWord total

theorem value_mem_totals (sum : WrittenSum) : sum.value ∈ sum.totals := by
  have hsome : sum.totals ≠ [] := List.scanl_ne_nil
  have hlast : sum.totals.getLast hsome = sum.value := List.getLast_scanl hsome
  rw [← hlast]
  exact List.getLast_mem hsome

/-! ## The language of sums -/

/-- The language `[0-9]`. -/
def digit : Language Char := {text | ∃ found : Char, found.isDigit = true ∧ text = [found]}

/-- The language `[0-9]+`. -/
def numeral : Language Char := digit * digit∗

/-- The language `[+-]`. -/
def sign : Language Char := {['+'], ['-']}

/-- The language `[0-9]+([+-][0-9]+)*`. -/
def language : Language Char := numeral * (sign * numeral)∗

theorem mem_numeral_iff {text : List Char} :
    text ∈ numeral ↔ ∃ written : Numeral, written.digits = text := by
  constructor
  · intro htext
    obtain ⟨_, ⟨leading, hleading, rfl⟩, others, hothers, rfl⟩ := Language.mem_mul.mp htext
    obtain ⟨pieces, rfl, hpieces⟩ := Language.mem_kstar.mp hothers
    refine ⟨⟨[leading] ++ pieces.flatten, List.cons_ne_nil _ _, ?_⟩, rfl⟩
    intro character hmember
    rcases List.mem_append.mp hmember with hfirst | hlater
    · rw [List.mem_singleton.mp hfirst]
      exact hleading
    · obtain ⟨piece, hpiece, hinside⟩ := List.mem_flatten.mp hlater
      obtain ⟨found, hfound, rfl⟩ := hpieces piece hpiece
      rw [List.mem_singleton.mp hinside]
      exact hfound
  · rintro ⟨⟨digits, hsome, hdigits⟩, rfl⟩
    obtain ⟨leading, others, rfl⟩ := List.exists_cons_of_ne_nil hsome
    apply Language.mem_mul.mpr
    refine ⟨[leading], ⟨leading, hdigits leading List.mem_cons_self, rfl⟩, others, ?_, rfl⟩
    apply Language.mem_kstar.mpr
    refine ⟨others.map fun found => [found], ?_, ?_⟩
    · rw [← List.flatMap_def, List.flatMap_singleton']
    · intro piece hpiece
      obtain ⟨found, hfound, rfl⟩ := List.mem_map.mp hpiece
      exact ⟨found, hdigits found (List.mem_cons_of_mem leading hfound), rfl⟩

theorem mem_sign_iff {text : List Char} :
    text ∈ sign ↔ ∃ written : Sign, [written.character] = text := by
  constructor
  · rintro (rfl | rfl)
    · exact ⟨.plus, rfl⟩
    · exact ⟨.minus, rfl⟩
  · rintro ⟨written, rfl⟩
    cases written
    · exact .inl rfl
    · exact .inr rfl

theorem mem_signed_iff {text : List Char} :
    text ∈ sign * numeral ↔ text ∈ Set.range SignedNumeral.text := by
  rw [Language.mem_mul]
  constructor
  · rintro ⟨first, hfirst, second, hsecond, rfl⟩
    obtain ⟨written, rfl⟩ := mem_sign_iff.mp hfirst
    obtain ⟨follower, rfl⟩ := mem_numeral_iff.mp hsecond
    exact ⟨⟨written, follower⟩, rfl⟩
  · rintro ⟨term, rfl⟩
    exact ⟨_, mem_sign_iff.mpr ⟨term.sign, rfl⟩, _, mem_numeral_iff.mpr ⟨term.numeral, rfl⟩, rfl⟩

/-- The language consists of the texts of sums. -/
theorem mem_language_iff {text : List Char} :
    text ∈ language ↔ ∃ sum : WrittenSum, sum.text = text := by
  rw [language, Language.mem_mul]
  constructor
  · rintro ⟨first, hfirst, rest, hrest, rfl⟩
    obtain ⟨written, rfl⟩ := mem_numeral_iff.mp hfirst
    obtain ⟨pieces, rfl, hpieces⟩ := Language.mem_kstar.mp hrest
    have hterms : pieces ∈ Set.range (List.map SignedNumeral.text) := by
      rw [Set.range_list_map]
      exact fun piece hpiece => mem_signed_iff.mp (hpieces piece hpiece)
    obtain ⟨terms, rfl⟩ := hterms
    exact ⟨⟨written, terms⟩, by rw [text, List.flatMap_def]⟩
  · rintro ⟨sum, rfl⟩
    refine ⟨_, mem_numeral_iff.mpr ⟨sum.first, rfl⟩, _, Language.mem_kstar.mpr ?_, rfl⟩
    refine ⟨sum.terms.map SignedNumeral.text, List.flatMap_def, ?_⟩
    intro piece hpiece
    obtain ⟨term, _, rfl⟩ := List.mem_map.mp hpiece
    exact mem_signed_iff.mpr ⟨term, rfl⟩

end WrittenSum

/-! ## Reading as far as possible -/

/-- The text does not go on with a digit. -/
def NoDigitAhead (text : List Char) : Prop :=
  ∀ character ∈ text.head?, character.isDigit = false

/-- Wherever the text goes on with a sign, it does not go on with a digit behind it. -/
def NoTermAhead (text : List Char) : Prop :=
  ∀ (sign : Sign) (rest : List Char), text = sign.character :: rest → NoDigitAhead rest

/-- Whether the text goes on with this sign, as a number. -/
def Sign.countAhead (sign : Sign) (text : List Char) : Nat :=
  if text.head? = some sign.character then 1 else 0

/-- Whether the text goes on with a sign, as a number. -/
def signsAhead (text : List Char) : Nat :=
  max (Sign.plus.countAhead text) (Sign.minus.countAhead text)

theorem NoDigitAhead.nil : NoDigitAhead [] := nofun

theorem NoTermAhead.nil : NoTermAhead [] := nofun

theorem Sign.isDigit_character (sign : Sign) : sign.character.isDigit = false := by
  cases sign <;> decide

theorem NoDigitAhead.sign (sign : Sign) (rest : List Char) :
    NoDigitAhead (sign.character :: rest) := by
  intro character hcharacter
  obtain rfl := Option.some.inj hcharacter
  exact sign.isDigit_character

/-- Where a term comes next, it begins with a sign. -/
theorem NoDigitAhead.terms (terms : List SignedNumeral) {after : List Char}
    (hafter : NoDigitAhead after) : NoDigitAhead (terms.flatMap SignedNumeral.text ++ after) := by
  cases terms with
  | nil => exact hafter
  | cons term rest =>
      rw [List.flatMap_cons, SignedNumeral.text, List.cons_append, List.cons_append]
      exact .sign term.sign _

theorem signsAhead_sign (sign : Sign) (rest : List Char) :
    signsAhead (sign.character :: rest) = 1 := by
  cases sign <;> rfl

theorem signsAhead_eq_zero {text : List Char}
    (hsign : ∀ (sign : Sign) (rest : List Char), text ≠ sign.character :: rest) :
    signsAhead text = 0 := by
  have hnone (sign : Sign) : sign.countAhead text = 0 := by
    rw [Sign.countAhead, if_neg]
    intro hhead
    obtain ⟨rest, hrest⟩ := List.head?_eq_some_iff.mp hhead
    exact hsign sign rest hrest
  rw [signsAhead, hnone, hnone, Nat.max_self]

theorem exists_numeral {text : List Char} (hdigit : ¬ NoDigitAhead text) :
    ∃ (numeral : Numeral) (after : List Char),
      text = numeral.digits ++ after ∧ NoDigitAhead after := by
  simp only [NoDigitAhead, not_forall, Bool.not_eq_false] at hdigit
  obtain ⟨leading, hhead, hleading⟩ := hdigit
  obtain ⟨others, rfl⟩ : ∃ others, text = leading :: others :=
    List.head?_eq_some_iff.mp hhead
  let numeral : Numeral :=
    { digits := (leading :: others).takeWhile Char.isDigit
      digits_ne_nil := by
        rw [List.takeWhile_cons_of_pos hleading]
        exact List.cons_ne_nil _ _
      isDigit_of_mem := fun _ hmember => List.mem_takeWhile_imp hmember }
  refine ⟨numeral, (leading :: others).dropWhile Char.isDigit,
    List.takeWhile_append_dropWhile.symm, ?_⟩
  intro character hcharacter
  have hstopped := List.head?_dropWhile_not Char.isDigit (leading :: others)
  rw [Option.mem_def.mp hcharacter] at hstopped
  exact hstopped

theorem exists_terms {text : List Char} (hdigit : NoDigitAhead text) :
    ∃ (terms : List SignedNumeral) (after : List Char),
      text = terms.flatMap SignedNumeral.text ++ after ∧ NoDigitAhead after ∧
        NoTermAhead after := by
  induction hlength : text.length using Nat.strongRecOn generalizing text with
  | ind length ih =>
      by_cases hterm : NoTermAhead text
      · exact ⟨[], text, rfl, hdigit, hterm⟩
      · simp only [NoTermAhead, not_forall] at hterm
        obtain ⟨sign, rest, rfl, hrest⟩ := hterm
        obtain ⟨numeral, middle, rfl, hmiddle⟩ := exists_numeral hrest
        have hshorter : middle.length < length := by
          rw [← hlength, List.length_cons, List.length_append]
          omega
        obtain ⟨terms, after, rfl, hafter⟩ := ih middle.length hshorter hmiddle rfl
        refine ⟨⟨sign, numeral⟩ :: terms, after, ?_, hafter⟩
        rw [List.flatMap_cons, List.append_assoc]
        rfl

/-- A text that begins with a digit begins with a sum that ends where no term follows. -/
theorem WrittenSum.exists_reading {text : List Char} (hdigit : ¬ NoDigitAhead text) :
    ∃ (sum : WrittenSum) (after : List Char),
      text = sum.text ++ after ∧ NoDigitAhead after ∧ NoTermAhead after := by
  obtain ⟨first, middle, rfl, hmiddle⟩ := exists_numeral hdigit
  obtain ⟨terms, after, rfl, hafter⟩ := exists_terms hmiddle
  exact ⟨⟨first, terms⟩, after, (List.append_assoc _ _ _).symm, hafter⟩

/-! ## What can be continued -/

namespace WrittenSum

/-- With something behind it, the text is that of a sum. -/
def CanContinue (text : List Char) : Prop :=
  ∃ rest, text ++ rest ∈ language

/-- The lengths of the prefixes of a text that can be continued. -/
def continuable (text : List Char) : Set Nat :=
  {length | length ≤ text.length ∧ CanContinue (text.take length)}

/-- A sign is followed by a digit. -/
def Follows (former latter : Char) : Prop :=
  ∀ sign : Sign, former = sign.character → latter.isDigit = true

theorem Follows.of_digit {digit : Char} (hdigit : digit.isDigit = true) (latter : Char) :
    Follows digit latter := by
  rintro sign rfl
  rw [sign.isDigit_character] at hdigit
  contradiction

theorem isChain_of_digits {digits after : List Char}
    (hdigits : ∀ digit ∈ digits, digit.isDigit = true) (hafter : after.IsChain Follows) :
    (digits ++ after).IsChain Follows := by
  induction digits with
  | nil => exact hafter
  | cons digit rest ih =>
      rw [List.cons_append, List.isChain_cons]
      refine ⟨?_, ih fun other hother => hdigits other (List.mem_cons_of_mem digit hother)⟩
      intro latter _
      exact .of_digit (hdigits digit List.mem_cons_self) latter

/-- In a sum, every sign is followed by a digit. -/
theorem isChain_text (sum : WrittenSum) : sum.text.IsChain Follows := by
  apply isChain_of_digits sum.first.isDigit_of_mem
  induction sum.terms with
  | nil => exact .nil
  | cons term rest ih =>
      rw [List.flatMap_cons, SignedNumeral.text, List.cons_append, List.isChain_cons]
      refine ⟨?_, isChain_of_digits term.numeral.isDigit_of_mem ih⟩
      obtain ⟨leading, others, hdigits, hleading⟩ := term.numeral.exists_cons
      intro latter hlatter _ _
      rw [hdigits] at hlatter
      obtain rfl := Option.some.inj hlatter
      exact hleading

/-- A sum consists of digits and signs. -/
theorem isDigit_or_sign_of_mem (sum : WrittenSum) {character : Char}
    (hmember : character ∈ sum.text) :
    character.isDigit = true ∨ ∃ sign : Sign, character = sign.character := by
  rcases List.mem_append.mp hmember with hfirst | hlater
  · exact .inl (sum.first.isDigit_of_mem character hfirst)
  · obtain ⟨term, _, hinside⟩ := List.mem_flatMap.mp hlater
    rcases List.mem_cons.mp hinside with rfl | hdigit
    · exact .inr ⟨term.sign, rfl⟩
    · exact .inl (term.numeral.isDigit_of_mem character hdigit)

/-- A sum begins with a digit. -/
theorem not_noDigitAhead_text (sum : WrittenSum) (after : List Char) :
    ¬ NoDigitAhead (sum.text ++ after) := by
  intro hdigit
  obtain ⟨leading, others, hdigits, hleading⟩ := sum.first.exists_cons
  have hnone := hdigit leading (by rw [text, hdigits]; rfl)
  rw [hleading] at hnone
  contradiction

theorem text_ne_nil (sum : WrittenSum) : sum.text ≠ [] :=
  List.append_ne_nil_of_left_ne_nil sum.first.digits_ne_nil _

theorem mem_language (sum : WrittenSum) : sum.text ∈ language :=
  mem_language_iff.mpr ⟨sum, rfl⟩

theorem CanContinue.exists_sum {before : List Char} (hcontinue : CanContinue before) :
    ∃ (sum : WrittenSum) (rest : List Char), sum.text = before ++ rest := by
  obtain ⟨rest, hlanguage⟩ := hcontinue
  obtain ⟨sum, hsum⟩ := mem_language_iff.mp hlanguage
  exact ⟨sum, rest, hsum⟩

theorem CanContinue.of_append {before after : List Char}
    (hcontinue : CanContinue (before ++ after)) : CanContinue before := by
  obtain ⟨rest, hlanguage⟩ := hcontinue
  rw [List.append_assoc] at hlanguage
  exact ⟨after ++ rest, hlanguage⟩

theorem CanContinue.isDigit_or_sign {before : List Char} {character : Char}
    (hcontinue : CanContinue (before ++ [character])) :
    character.isDigit = true ∨ ∃ sign : Sign, character = sign.character := by
  obtain ⟨sum, rest, hsum⟩ := hcontinue.exists_sum
  apply sum.isDigit_or_sign_of_mem
  simp [hsum]

theorem CanContinue.isDigit_of_sign {before : List Char} {sign : Sign} {character : Char}
    (hcontinue : CanContinue (before ++ [sign.character] ++ [character])) :
    character.isDigit = true := by
  obtain ⟨sum, rest, hsum⟩ := hcontinue.exists_sum
  have hchain := sum.isChain_text
  rw [hsum, List.append_assoc, List.append_assoc] at hchain
  exact (List.isChain_append_cons_cons.mp hchain).2.1 sign rfl

theorem canContinue_text (sum : WrittenSum) : CanContinue sum.text :=
  ⟨[], by rw [List.append_nil]; exact sum.mem_language⟩

def zero : Numeral where
  digits := ['0']
  digits_ne_nil := List.cons_ne_nil '0' []
  isDigit_of_mem := by
    intro digit hmember
    rw [List.mem_singleton.mp hmember]
    rfl

theorem canContinue_nil : CanContinue [] :=
  ⟨['0'], mem_language ⟨zero, []⟩⟩

theorem canContinue_sign (sum : WrittenSum) (sign : Sign) :
    CanContinue (sum.text ++ [sign.character]) := by
  let longer : WrittenSum := ⟨sum.first, sum.terms ++ [⟨sign, zero⟩]⟩
  have htext : longer.text = sum.text ++ [sign.character] ++ ['0'] := by
    simp [longer, text, SignedNumeral.text, zero]
  exact ⟨['0'], htext ▸ longer.mem_language⟩

/-- What can be continued ends where the next character cannot be. -/
theorem isGreatest_continuable_of_stuck {shown after : List Char} (hshown : CanContinue shown)
    (hstuck : ∀ (character : Char) (rest : List Char), after = character :: rest →
      ¬ CanContinue (shown ++ [character])) :
    IsGreatest (continuable (shown ++ after)) shown.length := by
  refine ⟨⟨?_, ?_⟩, ?_⟩
  · rw [List.length_append]
    exact Nat.le_add_right _ _
  · rw [List.take_left]
    exact hshown
  · rintro length ⟨hlength, hcontinue⟩
    by_contra hlonger
    obtain ⟨more, rfl⟩ : ∃ more, length = shown.length + (more + 1) :=
      ⟨length - shown.length - 1, by omega⟩
    rw [List.length_append] at hlength
    rw [List.take_length_add_append] at hcontinue
    cases after with
    | nil =>
        rw [List.length_nil] at hlength
        omega
    | cons character rest =>
        apply hstuck character rest rfl
        rw [List.take_succ_cons, List.append_cons] at hcontinue
        exact hcontinue.of_append

/-- Nothing but the empty prefix can be continued where no digit comes first. -/
theorem isGreatest_continuable_zero {after : List Char} (hdigit : NoDigitAhead after) :
    IsGreatest (continuable after) 0 := by
  apply isGreatest_continuable_of_stuck canContinue_nil
  rintro character rest rfl hcontinue
  obtain ⟨sum, others, hsum⟩ := hcontinue.exists_sum
  apply sum.not_noDigitAhead_text []
  rw [List.append_nil, hsum]
  exact hdigit

/-- A sign can be continued, but nothing behind it that is no digit. -/
theorem isGreatest_continuable_of_sign (sum : WrittenSum) (sign : Sign) {rest : List Char}
    (hdigit : NoDigitAhead rest) :
    IsGreatest (continuable (sum.text ++ sign.character :: rest)) (sum.text.length + 1) := by
  have hgreatest : IsGreatest (continuable (sum.text ++ [sign.character] ++ rest))
      (sum.text ++ [sign.character]).length := by
    apply isGreatest_continuable_of_stuck (sum.canContinue_sign sign)
    rintro character others rfl hcontinue
    have hfollows : character.isDigit = true := hcontinue.isDigit_of_sign
    rw [hdigit character rfl] at hfollows
    contradiction
  rwa [List.length_append, List.append_assoc] at hgreatest

/-- Behind a sum that ends before anything else, nothing can be continued. -/
theorem isGreatest_continuable_of_other (sum : WrittenSum) {after : List Char}
    (hdigit : NoDigitAhead after)
    (hsign : ∀ (sign : Sign) (rest : List Char), after ≠ sign.character :: rest) :
    IsGreatest (continuable (sum.text ++ after)) sum.text.length := by
  apply isGreatest_continuable_of_stuck sum.canContinue_text
  rintro character others rfl hcontinue
  rcases hcontinue.isDigit_or_sign with hfound | ⟨sign, rfl⟩
  · rw [hdigit character rfl] at hfound
    contradiction
  · exact hsign sign others rfl

/-- Behind a sum that is followed by no term, a sign is all that can be continued. -/
theorem isGreatest_continuable (sum : WrittenSum) {after : List Char}
    (hdigit : NoDigitAhead after) (hterm : NoTermAhead after) :
    IsGreatest (continuable (sum.text ++ after)) (sum.text.length + signsAhead after) := by
  by_cases hsign : ∃ (sign : Sign) (rest : List Char), after = sign.character :: rest
  · obtain ⟨sign, rest, rfl⟩ := hsign
    rw [signsAhead_sign]
    exact sum.isGreatest_continuable_of_sign sign (hterm sign rest rfl)
  · simp only [not_exists] at hsign
    rw [signsAhead_eq_zero hsign, Nat.add_zero]
    exact sum.isGreatest_continuable_of_other hdigit hsign

end WrittenSum

end Packrat
