import Mathlib.Data.String.Basic
import Packrat.Report.ParseError

/-!
# Reading by code point

A source counts code points and keeps its text in UTF-8.  The offset of every position lies
between two code points, so what is read by offsets is what the list of code points has there.
-/

namespace Packrat

theorem byteOffsets_append_getElem? (offset : Nat) (before after : List Char) :
    (byteOffsets offset (before ++ after))[before.length]? =
      some (offset + String.utf8Len before) := by
  induction before generalizing offset with
  | nil => cases after <;> simp [byteOffsets]
  | cons character before ih =>
      have hoffset := ih (offset + character.utf8Size)
      simp only [List.cons_append, byteOffsets, List.length_cons, List.getElem?_cons_succ,
        hoffset, String.utf8Len_cons]
      congr 1
      omega

namespace Source

/-- The characters from a position to the end. -/
def rest (source : Source) (position : Nat) : List Char :=
  source.text.toList.drop position

/-- The characters between two positions. -/
def between (source : Source) (start stop : Nat) : List Char :=
  (source.text.toList.drop start).take (stop - start)

variable {source : Source} {position start middle stop : Nat}

theorem tail_rest (source : Source) (position : Nat) :
    (source.rest position).tail = source.rest (position + 1) := by
  rw [rest, rest, List.tail_drop]

theorem length_rest (source : Source) (position : Nat) :
    (source.rest position).length = source.length - position := by
  rw [rest, List.length_drop, length_eq]

theorem between_append (source : Source) (hfirst : start ≤ middle) (hsecond : middle ≤ stop) :
    source.between start middle ++ source.between middle stop = source.between start stop := by
  have hcount : stop - start = (middle - start) + (stop - middle) := by omega
  have hmiddle : start + (middle - start) = middle := by omega
  rw [between, between, between, hcount, List.take_add, List.drop_drop, hmiddle]

theorem take_append_between (source : Source) (hle : start ≤ stop) :
    source.text.toList.take start ++ source.between start stop = source.text.toList.take stop := by
  have hcount : stop = start + (stop - start) := by omega
  conv_rhs => rw [hcount, List.take_add]
  rfl

theorem length_between (hle : start ≤ stop) (hstop : stop ≤ source.length) :
    (source.between start stop).length = stop - start := by
  rw [between, List.length_take, List.length_drop, ← source.length_eq]
  omega

/-- What lies before a position ends with what lies between an earlier one and it. -/
theorem between_suffix (source : Source) (start stop : Nat) :
    source.between start stop <:+ source.text.toList.take stop := by
  rw [between, ← List.drop_take]
  exact List.drop_suffix start _

/-! ## Offsets -/

/-- The offset of a position is the size of the text before it. -/
theorem offset_eq (source : Source) (hposition : position ≤ source.length) :
    source.offsets[position]? = some (String.utf8Len (source.text.toList.take position)) := by
  have hvalid := byteOffsets_append_getElem? 0 (source.text.toList.take position)
    (source.text.toList.drop position)
  rw [List.take_append_drop, List.length_take_of_le (source.length_eq ▸ hposition),
    Nat.zero_add] at hvalid
  simpa [source.offsets_eq] using hvalid

theorem offset_eq_none (hposition : source.length < position) :
    source.offsets[position]? = none := by
  apply Array.getElem?_eq_none
  rw [length] at hposition
  omega

/-- No offset lies inside the encoding of a code point. -/
theorem isValid_offset (source : Source) (position : Nat) :
    String.Pos.Raw.IsValid source.text
      ⟨String.utf8Len (source.text.toList.take position)⟩ := by
  refine String.Pos.Raw.isValid_iff_exists_append.mpr
    ⟨String.ofList (source.text.toList.take position),
      String.ofList (source.text.toList.drop position), ?_, ?_⟩
  · rw [← String.ofList_append, List.take_append_drop, String.ofList_toList]
  · rw [String.rawEndPos, String.utf8ByteSize_ofList]

theorem offset_lt_offset (hlt : start < stop) (hstop : stop ≤ source.length) :
    String.utf8Len (source.text.toList.take start) <
      String.utf8Len (source.text.toList.take stop) := by
  have hbetween : source.between start stop ≠ [] := by
    rw [← List.length_pos_iff, length_between (Nat.le_of_lt hlt) hstop]
    omega
  have hsize : String.utf8Len (source.between start stop) ≠ 0 :=
    fun hzero => hbetween (String.utf8Len_eq_zero.mp hzero)
  rw [← source.take_append_between (Nat.le_of_lt hlt), String.utf8Len_append]
  omega

/-! ## One code point -/

/-- Reading at a byte offset finds the code point that begins there. -/
theorem codePointAt?_eq (hinside : position < source.length) :
    source.codePointAt? position = source.text.toList[position]? := by
  have hlength : position < source.text.toList.length := source.length_eq ▸ hinside
  let before := source.text.toList.take position
  obtain ⟨found, after, hrest⟩ : ∃ found after, source.rest position = found :: after :=
    ⟨_, _, List.drop_eq_getElem_cons hlength⟩
  have hfound : source.text.toList[position]? = some found := by
    rw [← List.head?_drop, ← rest, hrest, List.head?_cons]
  have hsplit : source.text.toList = before ++ found :: after := by
    rw [← hrest]
    exact (List.take_append_drop position source.text.toList).symm
  have hoffset : source.offsets[position]? = some (String.utf8Len before) :=
    source.offset_eq (Nat.le_of_lt hinside)
  have hbound : String.utf8Len before < source.text.utf8ByteSize := by
    have hsize := found.utf8Size_pos
    rw [← String.utf8Len_toList, hsplit, String.utf8Len_append, String.utf8Len_cons]
    omega
  have hread : String.Pos.Raw.get source.text ⟨String.utf8Len before⟩ = found := by
    have hvalid := String.get_of_valid before (found :: after)
    rw [← hsplit, String.ofList_toList] at hvalid
    exact hvalid
  simp only [codePointAt?, hoffset, hfound]
  simp [hbound, hread]

theorem next?_eq_getElem? (source : Source) (position : Nat) :
    source.next? position = source.text.toList[position]? := by
  rw [next?]
  split
  · next hinside => exact codePointAt?_eq hinside
  · next hbeyond =>
      rw [List.getElem?_eq_none]
      rw [← source.length_eq]
      exact Nat.not_lt.mp hbeyond

theorem next?_eq_head?_rest (source : Source) (position : Nat) :
    source.next? position = (source.rest position).head? := by
  rw [next?_eq_getElem?, rest, List.head?_drop]

/-! ## Slices -/

/-- Reading by byte offsets yields the characters between the two positions. -/
theorem slice?_eq (hstart : start ≤ stop) (hstop : stop ≤ source.length) :
    source.slice? start stop = some (String.ofList (source.between start stop)) := by
  let before := source.text.toList.take start
  let shown := source.between start stop
  let after := source.text.toList.drop stop
  have htaken : before ++ shown = source.text.toList.take stop := source.take_append_between hstart
  have htext : source.text = String.ofList (before ++ shown ++ after) := by
    rw [htaken, List.take_append_drop, String.ofList_toList]
  have hfirst : source.offsets[start]? = some (String.utf8Len before) :=
    source.offset_eq (Nat.le_trans hstart hstop)
  have hlast : source.offsets[stop]? = some (String.utf8Len before + String.utf8Len shown) := by
    rw [source.offset_eq hstop, ← htaken, String.utf8Len_append]
  have hread : String.Pos.Raw.extract source.text ⟨String.utf8Len before⟩
      ⟨String.utf8Len before + String.utf8Len shown⟩ = String.ofList shown := by
    rw [htext]
    exact String.extract_of_valid before shown after
  simp only [slice?, hfirst, hlast, Option.bind_eq_bind, Option.bind_some,
    if_pos (Nat.le_add_right _ _), hread]
  rfl

/-- What lies between two positions of the source can be read. -/
theorem exists_slice? (hstart : start ≤ stop) (hstop : stop ≤ source.length) :
    ∃ shown, source.slice? start stop = some shown :=
  ⟨_, slice?_eq hstart hstop⟩

theorem slice?_self (hposition : position ≤ source.length) :
    source.slice? position position = some "" := by
  rw [slice?_eq (Nat.le_refl position) hposition, between, Nat.sub_self, List.take_zero]

theorem slice?_all (source : Source) : source.slice? 0 source.length = some source.text := by
  rw [slice?_eq (Nat.zero_le _) (Nat.le_refl _), between, Nat.sub_zero, List.drop_zero,
    source.length_eq, List.take_length, String.ofList_toList]

/-- Slices that lie end to end compose. -/
theorem exists_slice?_append (hfirst : start ≤ middle) (hsecond : middle ≤ stop)
    (hstop : stop ≤ source.length) :
    ∃ front back, source.slice? start middle = some front ∧
      source.slice? middle stop = some back ∧ source.slice? start stop = some (front ++ back) := by
  refine ⟨_, _, slice?_eq hfirst (Nat.le_trans hsecond hstop), slice?_eq hsecond hstop, ?_⟩
  rw [slice?_eq (Nat.le_trans hfirst hsecond) hstop, ← String.ofList_append,
    between_append source hfirst hsecond]

theorem slice?_eq_none (hrefused : stop < start ∨ source.length < stop) :
    source.slice? start stop = none := by
  by_cases hlast : source.length < stop
  · simp [slice?, offset_eq_none hlast]
  · by_cases hfirst : source.length < start
    · simp [slice?, offset_eq_none hfirst]
    · have hbackwards : stop < start := hrefused.resolve_right hlast
      have hoffsets := offset_lt_offset hbackwards (Nat.not_lt.mp hfirst)
      simp [slice?, source.offset_eq (Nat.not_lt.mp hfirst),
        source.offset_eq (Nat.not_lt.mp hlast), hoffsets]

/-- What is not inside the source, or runs backwards, cannot be read, and all else can. -/
theorem slice?_eq_none_iff :
    source.slice? start stop = none ↔ stop < start ∨ source.length < stop := by
  refine ⟨fun hnone => ?_, slice?_eq_none⟩
  by_contra hinside
  obtain ⟨shown, hshown⟩ : ∃ shown, source.slice? start stop = some shown :=
    exists_slice? (by omega) (by omega)
  rw [hnone] at hshown
  contradiction

/-- A slice has the bytes between the offsets of its positions. -/
theorem bytes_between (source : Source) (hle : start ≤ stop) :
    (String.ofList (source.between start stop)).toByteArray =
      source.text.toByteArray.extract (String.utf8Len (source.text.toList.take start))
        (String.utf8Len (source.text.toList.take stop)) := by
  let before := String.ofList (source.text.toList.take start)
  let shown := String.ofList (source.between start stop)
  let after := String.ofList (source.text.toList.drop stop)
  have htext : source.text = before ++ (shown ++ after) := by
    rw [← String.ofList_append, ← String.ofList_append, ← List.append_assoc,
      source.take_append_between hle, List.take_append_drop, String.ofList_toList]
  have hfirst : String.utf8Len (source.text.toList.take start) = before.toByteArray.size := by
    rw [String.size_toByteArray, String.utf8ByteSize_ofList]
  have hlast : String.utf8Len (source.text.toList.take stop) =
      before.toByteArray.size + shown.toByteArray.size := by
    rw [← source.take_append_between hle, String.utf8Len_append, String.size_toByteArray,
      String.size_toByteArray, String.utf8ByteSize_ofList, String.utf8ByteSize_ofList]
  have hbytes : source.text.toByteArray =
      before.toByteArray ++ (shown.toByteArray ++ after.toByteArray) := by
    rw [htext, String.toByteArray_append, String.toByteArray_append]
  calc shown.toByteArray
      = (shown.toByteArray ++ after.toByteArray).extract 0 shown.toByteArray.size :=
        (ByteArray.extract_append_eq_left rfl).symm
    _ = source.text.toByteArray.extract (before.toByteArray.size + 0)
          (before.toByteArray.size + shown.toByteArray.size) := by
        rw [hbytes, ByteArray.extract_append_size_add]
    _ = _ := by rw [hfirst, hlast, Nat.add_zero]

/-! ## Descriptions -/

/-- The description of a position that quotes the given characters before it. -/
def located (position : Nat) (quoted : List Char) : String :=
  if position = 0 then "at start"
  else
    "after '" ++ (if quoted.length < position then "..." else "") ++
      Text.escapedControls (String.ofList quoted) ++ "'"

theorem describe?_eq (hposition : position ≤ source.length) :
    source.describe? position =
      some (located position (source.between (position - locationWindow) position)) := by
  have hslice := slice?_eq (Nat.sub_le position locationWindow) hposition
  have hquoted := length_between (Nat.sub_le position locationWindow) hposition
  rw [describe?, located, hquoted]
  by_cases hlong : locationWindow < position
  · have hsome : position ≠ 0 := by omega
    have hshort : position - (position - locationWindow) < position := by
      rw [locationWindow] at hlong ⊢
      omega
    rw [if_pos hlong, if_neg hsome, if_pos hshort, hslice]
    rfl
  · have hall : position - locationWindow = 0 := by omega
    rw [if_neg hlong, hall, Nat.sub_zero, if_neg (Nat.lt_irrefl position), String.append_empty]
    rw [hall] at hslice
    by_cases hzero : position = 0
    · rw [if_pos hzero, if_neg (by omega)]
    · rw [if_neg hzero, if_pos (by omega), hslice]
      rfl

/-- The report of labels that failed at a position. -/
def reported (source : Source) (position : Nat) (labels : List String) : ParseError :=
  ⟨position, located position (source.between (position - locationWindow) position),
    .ofLabels labels⟩

theorem at?_eq (hposition : position ≤ source.length) (labels : List String) :
    ParseError.at? source position labels = some (source.reported position labels) := by
  rw [ParseError.at?, describe?_eq hposition]
  rfl

/-- A failure inside the source can be reported. -/
theorem ofFailure?_eq {failure : Failure} (hfailure : failure.position = some position)
    (hposition : position ≤ source.length) :
    ParseError.ofFailure? source failure = some (source.reported position failure.labels) := by
  rw [ParseError.ofFailure?, hfailure, Option.bind_some, at?_eq hposition]

/-! ## What a source shows -/

/-- A source shows a list of code points when its positions count them and whatever is read is
found among them, without regard to the bytes that each of them takes. -/
structure Shows (source : Source) (characters : List Char) : Prop where
  length_eq : source.length = characters.length
  /-- The index says how many bytes precede a position, and no code point is cut there. -/
  boundary : ∀ position ≤ characters.length, ∃ offset,
    source.offsets[position]? = some offset ∧
      offset = (String.ofList (characters.take position)).utf8ByteSize ∧
        String.Pos.Raw.IsValid source.text ⟨offset⟩
  slice : ∀ start stop, start ≤ stop → stop ≤ characters.length →
    source.slice? start stop = some (String.ofList ((characters.drop start).take (stop - start)))
  bytes : ∀ start stop shown, source.slice? start stop = some shown →
    ∃ first last, source.offsets[start]? = some first ∧ source.offsets[stop]? = some last ∧
      shown.toByteArray = source.text.toByteArray.extract first last
  append : ∀ start middle stop, start ≤ middle → middle ≤ stop → stop ≤ characters.length →
    ∃ front back, source.slice? start middle = some front ∧
      source.slice? middle stop = some back ∧ source.slice? start stop = some (front ++ back)
  whole : source.slice? 0 characters.length = some source.text
  refused : ∀ start stop,
    source.slice? start stop = none ↔ stop < start ∨ characters.length < stop
  codePoint : ∀ position (hposition : position < characters.length),
    source.codePointAt? position = some characters[position]
  /-- A description quotes the last characters before a position, no more than a window holds,
  and marks what it leaves out. -/
  description : ∀ position ≤ characters.length, ∃ quoted,
    quoted <:+ characters.take position ∧ quoted.length = min position 15 ∧
      source.describe? position = some (located position quoted)

theorem ofText_shows_code_points (text : String) : (ofText text).Shows text.toList where
  length_eq := length_eq _
  boundary position hposition := by
    refine ⟨_, (ofText text).offset_eq ((ofText text).length_eq ▸ hposition), ?_,
      (ofText text).isValid_offset position⟩
    exact (String.utf8ByteSize_ofList _).symm
  slice start stop hstart hstop := slice?_eq hstart ((ofText text).length_eq ▸ hstop)
  bytes start stop shown hshown := by
    have hinside : start ≤ stop ∧ stop ≤ (ofText text).length := by
      by_contra hrefused
      rw [slice?_eq_none (by omega)] at hshown
      contradiction
    obtain ⟨hstart, hstop⟩ := hinside
    obtain rfl := Option.some.inj ((slice?_eq hstart hstop).symm.trans hshown)
    exact ⟨_, _, offset_eq _ (Nat.le_trans hstart hstop), offset_eq _ hstop,
      bytes_between _ hstart⟩
  append start middle stop hfirst hsecond hstop :=
    exists_slice?_append hfirst hsecond ((ofText text).length_eq ▸ hstop)
  whole := (ofText text).length_eq ▸ slice?_all _
  refused start stop := by
    rw [slice?_eq_none_iff, length_eq]
    rfl
  codePoint position hposition := by
    rw [codePointAt?_eq ((ofText text).length_eq ▸ hposition)]
    exact List.getElem?_eq_getElem hposition
  description position hposition := by
    have hinside : position ≤ (ofText text).length := (ofText text).length_eq ▸ hposition
    refine ⟨_, between_suffix _ _ position, ?_, describe?_eq hinside⟩
    rw [length_between (Nat.sub_le position locationWindow) hinside, locationWindow]
    omega

/-- Code points of one, two and three bytes. -/
example : (ofText "añb€").offsets = #[0, 1, 3, 4, 7] ∧ (ofText "añb€").slice? 1 3 = some "ñb" := by
  decide +kernel

end Source

end Packrat
