import Packrat.Grammar.Terminal
import Packrat.Proofs.CodePoints

/-!
# What terminals take

A terminal is given a meaning on the list of characters in front of it.  Reading the
source finds that list, so a terminal takes what it means to take.
-/

namespace Packrat

namespace Terminal

/-- The terminal takes that many of the characters in front of it. -/
inductive Takes : Terminal → List Char → Nat → Prop
  | character (wanted : Char) (rest : List Char) :
      Takes (.character wanted) (wanted :: rest) 1
  | otherCharacter {unwanted found : Char} (rest : List Char) (hother : found ≠ unwanted) :
      Takes (.otherCharacter unwanted) (found :: rest) 1
  | text (wanted : String) (rest : List Char) :
      Takes (.text wanted) (wanted.toList ++ rest) wanted.toList.length
  | otherText {unwanted : String} {found : Char} {rest : List Char}
      (hother : ¬ unwanted.toList <+: found :: rest) :
      Takes (.otherText unwanted) (found :: rest) 1
  | oneOf {listed : String} {found : Char} (rest : List Char)
      (hlisted : found ∈ listed.toList) : Takes (.oneOf listed) (found :: rest) 1
  | noneOf {listed : String} {found : Char} (rest : List Char)
      (hlisted : found ∉ listed.toList) : Takes (.noneOf listed) (found :: rest) 1
  | between {first last found : Char} (rest : List Char) (hfirst : first ≤ found)
      (hlast : found ≤ last) : Takes (.between first last) (found :: rest) 1
  | outside {first last found : Char} (rest : List Char)
      (houtside : found < first ∨ last < found) :
      Takes (.outside first last) (found :: rest) 1
  | anyCharacter (found : Char) (rest : List Char) : Takes .anyCharacter (found :: rest) 1
  | endOfText : Takes .endOfText [] 0

theorem Takes.le_length {terminal : Terminal} {rest : List Char} {length : Nat}
    (htakes : terminal.Takes rest length) : length ≤ rest.length := by
  cases htakes <;> simp

variable {source : Source} {position length : Nat}

theorem stopOfText?_eq_some_iff {wanted : List Char} {stop : Nat} :
    stopOfText? source position wanted = some stop ↔
      wanted <+: source.rest position ∧ stop = position + wanted.length := by
  induction wanted generalizing position with
  | nil => simp [stopOfText?, eq_comm]
  | cons character wanted ih =>
      rw [stopOfText?, source.next?_eq_head?_rest]
      have htail := source.tail_rest position
      cases hrest : source.rest position with
      | nil => simp
      | cons found after =>
          rw [hrest, List.tail_cons] at htail
          by_cases hfound : found = character
          · simp only [List.head?_cons, hfound, if_true, ih, ← htail, List.cons_prefix_cons,
              true_and, List.length_cons, Nat.add_assoc, Nat.add_comm 1]
          · have hdiffer : ¬ character = found := fun h => hfound h.symm
            simp [hfound, hdiffer]

theorem lengthOfText?_eq_some_iff {wanted : String} :
    lengthOfText? source position wanted = some length ↔
      wanted.toList <+: source.rest position ∧ length = wanted.toList.length := by
  simp only [lengthOfText?, Option.map_eq_some_iff, stopOfText?_eq_some_iff]
  constructor
  · rintro ⟨stop, ⟨hwanted, rfl⟩, rfl⟩
    exact ⟨hwanted, by omega⟩
  · rintro ⟨hwanted, rfl⟩
    exact ⟨_, ⟨hwanted, rfl⟩, by omega⟩

theorem lengthOfText?_eq_none_iff {unwanted : String} :
    lengthOfText? source position unwanted = none ↔
      ¬ unwanted.toList <+: source.rest position := by
  rw [Option.eq_none_iff_forall_ne_some]
  constructor
  · intro hnone hbegins
    exact hnone _ (lengthOfText?_eq_some_iff.mpr ⟨hbegins, rfl⟩)
  · intro hbegins length hsome
    exact hbegins (lengthOfText?_eq_some_iff.mp hsome).1

theorem lengthOfOne?_eq_some_iff {test : Char → Bool} :
    lengthOfOne? source position test = some length ↔
      ∃ found after, source.rest position = found :: after ∧ test found ∧ length = 1 := by
  rw [lengthOfOne?, source.next?_eq_head?_rest]
  cases source.rest position with
  | nil => simp
  | cons found after =>
      by_cases htest : test found
      · simp only [List.head?_cons, htest, if_true, Option.some.injEq]
        constructor
        · intro hlength
          exact ⟨found, after, rfl, htest, hlength.symm⟩
        · rintro ⟨_, _, _, _, hlength⟩
          exact hlength.symm
      · simp [htest]

/-- A terminal matches where it means to, and takes what it means to take. -/
theorem matchLength?_eq_some_iff {terminal : Terminal} :
    terminal.matchLength? source position = some length ↔
      terminal.Takes (source.rest position) length := by
  cases terminal with
  | text wanted =>
      rw [matchLength?, lengthOfText?_eq_some_iff]
      constructor
      · rintro ⟨⟨after, hrest⟩, rfl⟩
        rw [← hrest]
        exact .text wanted after
      · intro htakes
        generalize source.rest position = rest at htakes
        cases htakes with
        | text _ after => exact ⟨List.prefix_append _ after, rfl⟩
  | endOfText =>
      rw [matchLength?, source.next?_eq_head?_rest]
      generalize source.rest position = rest
      constructor
      · intro hmatch
        cases rest with
        | nil =>
            obtain rfl : 0 = length := by simpa using hmatch
            exact .endOfText
        | cons found after => simp at hmatch
      · intro htakes
        cases htakes
        rfl
  | _ =>
      -- What is left takes one character that passes a test.
      rw [matchLength?, lengthOfOne?_eq_some_iff]
      constructor
      · rintro ⟨found, after, hrest, htest, rfl⟩
        simp [lengthOfText?_eq_none_iff, hrest] at htest
        rw [hrest]
        grind [Takes]
      · intro htakes
        generalize hrest : source.rest position = rest at htakes
        cases htakes
        exact ⟨_, _, rfl, by simp_all [lengthOfText?_eq_none_iff], rfl⟩

theorem matchLength?_le {terminal : Terminal}
    (hmatch : terminal.matchLength? source position = some length) :
    length ≤ source.length - position := by
  rw [← source.length_rest]
  exact (matchLength?_eq_some_iff.mp hmatch).le_length

theorem matchLength?_eq_none_iff {terminal : Terminal} :
    terminal.matchLength? source position = none ↔
      ∀ length, ¬ terminal.Takes (source.rest position) length := by
  rw [Option.eq_none_iff_forall_ne_some]
  exact forall_congr' fun _ => not_congr matchLength?_eq_some_iff

end Terminal

end Packrat
