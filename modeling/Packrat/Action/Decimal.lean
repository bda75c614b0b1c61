/-!
# Decimal numerals

A numeral is one optional sign and at least one digit of ASCII.  It denotes a word
of 64 bits with sign, and only a number in the range of such a word is read.
-/

namespace Packrat.Decimal

def digit? (character : Char) : Option Nat :=
  if '0' ≤ character ∧ character ≤ '9' then some (character.toNat - '0'.toNat) else none

/-- The number written by digits that follow the digits of `leading`. -/
def magnitude? (leading : Nat) : List Char → Option Nat
  | [] => some leading
  | character :: rest => do magnitude? (leading * 10 + (← digit? character)) rest

def integer? : List Char → Option Int
  | [] => none
  | ['+'] => none
  | ['-'] => none
  | '+' :: digits => (magnitude? 0 digits).map Int.ofNat
  | '-' :: digits => (magnitude? 0 digits).map fun magnitude => -Int.ofNat magnitude
  | digits => (magnitude? 0 digits).map Int.ofNat

/-- The word that a numeral denotes. -/
def word? (numeral : String) : Option Int64 :=
  (integer? numeral.toList).bind fun number =>
    if Int64.minValue.toInt ≤ number ∧ number ≤ Int64.maxValue.toInt then
      some (Int64.ofInt number)
    else none

end Packrat.Decimal
