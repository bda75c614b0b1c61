/-!
# Source text

The input of a parse is addressed by code point.  The text itself is stored in
UTF-8, so a source keeps the byte offset of every code point, and of the end
behind the last one, and reads by offset.
-/

namespace Packrat

/-- The byte offset of every character of a text that begins at `offset`, and of
the end of that text. -/
def byteOffsets (offset : Nat) : List Char → List Nat
  | [] => [offset]
  | character :: rest => offset :: byteOffsets (offset + character.utf8Size) rest

@[simp]
theorem length_byteOffsets (offset : Nat) (characters : List Char) :
    (byteOffsets offset characters).length = characters.length + 1 := by
  induction characters generalizing offset with
  | nil => rfl
  | cons character rest ih => simp [byteOffsets, ih]

structure Source where
  text : String
  offsets : Array Nat
  offsets_eq : offsets = (byteOffsets 0 text.toList).toArray

namespace Source

def ofText (text : String) : Source :=
  ⟨text, (byteOffsets 0 text.toList).toArray, rfl⟩

/-- The number of code points. -/
def length (source : Source) : Nat :=
  source.offsets.size - 1

theorem length_eq (source : Source) : source.length = source.text.toList.length := by
  simp [length, source.offsets_eq]

/-- The text from position `start` up to position `stop`, which is absent when a
position lies outside the source or the two are out of order. -/
def slice? (source : Source) (start stop : Nat) : Option String := do
  let first ← source.offsets[start]?
  let last ← source.offsets[stop]?
  if first ≤ last then
    some (String.Pos.Raw.extract source.text ⟨first⟩ ⟨last⟩)
  else none

/-- The code point at a position; the end of the source reads as code point
zero, and nothing can be read beyond it. -/
def codePointAt? (source : Source) (position : Nat) : Option Char := do
  let offset ← source.offsets[position]?
  if offset < source.text.utf8ByteSize then
    some (String.Pos.Raw.get source.text ⟨offset⟩)
  else some '\x00'

/-- The code point that a terminal at this position has in front of it. -/
def next? (source : Source) (position : Nat) : Option Char :=
  if position < source.length then source.codePointAt? position else none

end Source

end Packrat
