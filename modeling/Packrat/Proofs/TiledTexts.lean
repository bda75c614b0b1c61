import Packrat.Proofs.Positions
import Packrat.Proofs.Tiling

/-!
# The texts of tiled phrases

Slices of the source that lie end to end compose.  The children of a tiled phrase lie end to
end between boundaries, and the text of a range of children is the slice from one boundary to
another.
-/

namespace Packrat

variable {Value : Type} {source : Source}

/-! ## Boundaries -/

/-- The boundaries between parts that begin at `start`: where the part of an index begins, and
behind the last one where it ends. -/
def boundary (start : Nat) : List (Phrase Value) → Nat → Nat
  | part :: rest, index + 1 => boundary part.stop rest index
  | _, _ => start

namespace Tiles

variable {parts : List (Phrase Value)} {start stop index : Nat} {part : Phrase Value}

/-- Each part reaches from its boundary to the next. -/
theorem boundary_of_getElem? (htiles : Tiles source parts start stop)
    (hpart : parts[index]? = some part) :
    part.IsLeaf source ∧ boundary start parts index = part.start ∧
      boundary start parts (index + 1) = part.stop := by
  induction htiles generalizing index with
  | nil position => simp at hpart
  | @cons leaf rest _ hleaf _ ih =>
      cases index with
      | zero =>
          obtain rfl : leaf = part := by simpa using hpart
          refine ⟨hleaf, rfl, ?_⟩
          cases rest <;> rfl
      | succ index => exact ih hpart

theorem boundary_length (htiles : Tiles source parts start stop) :
    boundary start parts parts.length = stop := by
  induction htiles with
  | nil position => rfl
  | cons _ _ ih => exact ih

theorem boundary_le_succ (htiles : Tiles source parts start stop) (hindex : index < parts.length) :
    boundary start parts index ≤ boundary start parts (index + 1) := by
  obtain ⟨hleaf, hstart, hstop⟩ :=
    htiles.boundary_of_getElem? (List.getElem?_eq_getElem hindex)
  rw [hstart, hstop]
  exact hleaf.start_le_stop

theorem boundary_mono (htiles : Tiles source parts start stop) {first last : Nat}
    (hle : first ≤ last) (hlast : last ≤ parts.length) :
    boundary start parts first ≤ boundary start parts last := by
  induction last, hle using Nat.le_induction with
  | base => exact Nat.le_refl _
  | succ last _ ih =>
      exact Nat.le_trans (ih (Nat.le_of_succ_le hlast)) (htiles.boundary_le_succ hlast)

theorem boundary_le_length (htiles : Tiles source parts start stop)
    (hstop : stop ≤ source.length) (hindex : index ≤ parts.length) :
    boundary start parts index ≤ source.length := by
  apply Nat.le_trans (htiles.boundary_mono hindex (Nat.le_refl _))
  rw [htiles.boundary_length]
  exact hstop

end Tiles

/-! ## Texts of ranges -/

namespace Phrase

variable {phrase : Phrase Value} {stop first last : Nat}

/-- The text of a range of children is what lies between its boundaries. -/
theorem TiledTo.textOfChildren?_eq (htiled : phrase.TiledTo source stop)
    (hstop : stop ≤ source.length) (hle : first ≤ last) (hlast : last ≤ phrase.children.length) :
    phrase.textOfChildren? source first last =
      source.slice? (boundary phrase.start phrase.children first)
        (boundary phrase.start phrase.children last) := by
  rw [textOfChildren?]
  split
  · next hempty =>
      obtain rfl : first = last := by omega
      exact (Source.slice?_self (htiled.boundary_le_length hstop hlast)).symm
  · next hsome =>
      have hfirst : first < phrase.children.length := by omega
      have hbefore : last - 1 < phrase.children.length := by omega
      have hleftmost := List.getElem?_eq_getElem hfirst
      have hrightmost := List.getElem?_eq_getElem hbefore
      have hsucc : last - 1 + 1 = last := by omega
      obtain ⟨_, hbegins, _⟩ := htiled.boundary_of_getElem? hleftmost
      obtain ⟨_, _, hends⟩ := htiled.boundary_of_getElem? hrightmost
      rw [hsucc] at hends
      rw [hbegins, hends, hleftmost, hrightmost]
      rfl

/-- The texts that an action may ask for, of ranges of children, of single children and of the
phrase itself, all exist and compose, and every slice that is read for them lies in the
source. -/
structure TextsCompose (source : Source) (phrase : Phrase Value) : Prop where
  append : ∀ first middle last, first ≤ middle → middle ≤ last →
    last ≤ phrase.children.length →
      ∃ front back, phrase.textOfChildren? source first middle = some front ∧
        phrase.textOfChildren? source middle last = some back ∧
          phrase.textOfChildren? source first last = some (front ++ back)
  single : ∀ index < phrase.children.length, ∃ child text,
    phrase.children[index]? = some child ∧ child.text? source = some text ∧
      phrase.textOfChildren? source index (index + 1) = some text
  whole : ∃ text, phrase.text? source = some text ∧
    phrase.textOfChildren? source 0 phrase.children.length = some text
  range_within : ∀ first last leftmost rightmost, first < last →
    phrase.children[first]? = some leftmost → phrase.children[last - 1]? = some rightmost →
      leftmost.start ≤ rightmost.stop ∧ rightmost.stop ≤ source.length
  child_within : ∀ child ∈ phrase.children,
    child.start ≤ child.stop ∧ child.stop ≤ source.length
  within : phrase.start ≤ phrase.stop ∧ phrase.stop ≤ source.length

theorem TiledTo.textsCompose (htiled : phrase.TiledTo source phrase.stop)
    (hstop : phrase.stop ≤ source.length) : phrase.TextsCompose source where
  append first middle last hfirst hmiddle hlast := by
    rw [htiled.textOfChildren?_eq hstop hfirst (Nat.le_trans hmiddle hlast),
      htiled.textOfChildren?_eq hstop hmiddle hlast,
      htiled.textOfChildren?_eq hstop (Nat.le_trans hfirst hmiddle) hlast]
    exact Source.exists_slice?_append
      (htiled.boundary_mono hfirst (Nat.le_trans hmiddle hlast))
      (htiled.boundary_mono hmiddle hlast) (htiled.boundary_le_length hstop hlast)
  single index hindex := by
    have hchild := List.getElem?_eq_getElem hindex
    obtain ⟨hleaf, hbegins, hends⟩ := htiled.boundary_of_getElem? hchild
    obtain ⟨text, htext⟩ := Source.exists_slice? hleaf.start_le_stop hleaf.stop_le_length
    refine ⟨_, text, hchild, htext, ?_⟩
    rw [htiled.textOfChildren?_eq hstop (Nat.le_succ index) hindex, hbegins, hends]
    exact htext
  whole := by
    obtain ⟨text, htext⟩ := Source.exists_slice? htiled.start_le_stop hstop
    refine ⟨text, htext, ?_⟩
    have hbegins : boundary phrase.start phrase.children 0 = phrase.start := by
      cases phrase.children <;> rfl
    rw [htiled.textOfChildren?_eq hstop (Nat.zero_le _) (Nat.le_refl _), hbegins,
      htiled.boundary_length]
    exact htext
  range_within first last leftmost rightmost hlt hleftmost hrightmost := by
    have hsucc : last - 1 + 1 = last := by omega
    have hlast : last ≤ phrase.children.length := by
      have hbefore := (List.getElem?_eq_some_iff.mp hrightmost).1
      omega
    obtain ⟨_, hbegins, _⟩ := htiled.boundary_of_getElem? hleftmost
    obtain ⟨hleaf, _, hends⟩ := htiled.boundary_of_getElem? hrightmost
    rw [hsucc] at hends
    rw [← hbegins, ← hends]
    exact ⟨htiled.boundary_mono (Nat.le_of_lt hlt) hlast,
      htiled.boundary_le_length hstop hlast⟩
  child_within child hchild := by
    obtain ⟨index, hindex⟩ := List.getElem?_of_mem hchild
    obtain ⟨hleaf, _⟩ := htiled.boundary_of_getElem? hindex
    exact ⟨hleaf.start_le_stop, hleaf.stop_le_length⟩
  within := ⟨htiled.start_le_stop, hstop⟩

end Phrase

end Packrat
