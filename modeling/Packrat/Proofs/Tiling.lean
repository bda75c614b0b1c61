import Packrat.Proofs.Core
import Packrat.Proofs.TerminalMeaning

/-!
# Phrases tiled by their children

The parts that a phrase takes over lie end to end and leave nothing out.  What every
primitive hands to the innermost phrase continues the tiling of that phrase, so the tiling
is stated once for lists of parts and carried along the stack of open phrases.
-/

namespace Packrat

variable {Value : Type}

/-- A phrase that has matched a stretch of the source and keeps no parts. -/
structure Phrase.IsLeaf (source : Source) (phrase : Phrase Value) : Prop where
  success : phrase.success = true
  start_le_stop : phrase.start ≤ phrase.stop
  stop_le_length : phrase.stop ≤ source.length
  children : phrase.children = []

/-- Leaves that lie end to end from one position to another. -/
inductive Tiles (source : Source) : List (Phrase Value) → Nat → Nat → Prop where
  | nil (position : Nat) : Tiles source [] position position
  | cons {leaf : Phrase Value} {rest : List (Phrase Value)} {stop : Nat}
      (hleaf : leaf.IsLeaf source) (hrest : Tiles source rest leaf.stop stop) :
      Tiles source (leaf :: rest) leaf.start stop

namespace Tiles

variable {source : Source} {first second parts : List (Phrase Value)}
variable {start middle stop : Nat}

theorem of_isLeaf {leaf : Phrase Value} (hleaf : leaf.IsLeaf source) :
    Tiles source [leaf] leaf.start leaf.stop :=
  .cons hleaf (.nil leaf.stop)

theorem of_singleton {leaf : Phrase Value} (htiles : Tiles source [leaf] start stop) :
    leaf.IsLeaf source ∧ leaf.start = start ∧ leaf.stop = stop := by
  cases htiles with
  | cons hleaf hrest =>
      cases hrest
      exact ⟨hleaf, rfl, rfl⟩

theorem append (hfirst : Tiles source first start middle)
    (hsecond : Tiles source second middle stop) :
    Tiles source (first ++ second) start stop := by
  induction hfirst with
  | nil => exact hsecond
  | cons hleaf _ ih => exact .cons hleaf (ih hsecond)

theorem start_le_stop (htiles : Tiles source parts start stop) : start ≤ stop := by
  induction htiles with
  | nil => exact Nat.le_refl _
  | cons hleaf _ ih => exact Nat.le_trans hleaf.start_le_stop ih

theorem stop_le_length (htiles : Tiles source parts start stop)
    (hstart : start ≤ source.length) : stop ≤ source.length := by
  induction htiles with
  | nil => exact hstart
  | cons hleaf _ ih => exact ih hleaf.stop_le_length

end Tiles

namespace Phrase

/-- The children of a phrase tile it from its start to a position. -/
def TiledTo (source : Source) (phrase : Phrase Value) (stop : Nat) : Prop :=
  Tiles source phrase.children phrase.start stop

/-- What a closed phrase adds to the children of the phrase around it. -/
def handedOn (use : PhraseUse) (part : Phrase Value) : List (Phrase Value) :=
  if part.success then
    match use with
    | .rule => [part]
    | .inner => part.children
    | .predicate => []
  else []

/-- What a closed phrase hands on reaches from `start` to where it leaves the cursor. -/
def FitsAt (source : Source) (use : PhraseUse) (start : Nat) (part : Phrase Value) :
    Prop :=
  Tiles source (part.handedOn use) start (part.landing use start)

@[simp]
theorem children_absorb (use : PhraseUse) (part phrase : Phrase Value) (cursor : Nat) :
    (phrase.absorb use part cursor).children = phrase.children ++ part.handedOn use := by
  cases hsuccess : part.success <;> cases use <;>
    simp [absorb, attach, splice, inheritFailure, handedOn, hsuccess]

/-- A closed phrase that fits where a tiling ends continues the tiling. -/
theorem TiledTo.absorb {source : Source} {use : PhraseUse} {part phrase : Phrase Value}
    {start : Nat} (htiled : phrase.TiledTo source start)
    (hfits : part.FitsAt source use start) (cursor : Nat) :
    (phrase.absorb use part cursor).TiledTo source (part.landing use start) := by
  rw [TiledTo, children_absorb, start_absorb]
  exact htiled.append hfits

theorem opened_tiledTo (source : Source) (name diagnosis : String) (start : Nat) :
    (opened name diagnosis start : Phrase Value).TiledTo source start :=
  .nil start

/-- A failed phrase hands nothing on. -/
theorem fitsAt_of_failed {source : Source} {use : PhraseUse} {start : Nat}
    {part : Phrase Value} (hfailed : part.success = false) :
    part.FitsAt source use start := by
  simp only [FitsAt, handedOn, landing, hfailed]
  exact .nil start

end Phrase

/-! ## Closing -/

namespace Closing

variable {closing : Closing} {source : Source} {semantics : Semantics Value}
variable {cursor : Nat} {phrase part : Phrase Value}

/-- Whatever way a tiled phrase is closed, it fits where it was opened. -/
theorem fitsAt_of_settled? (htiled : phrase.TiledTo source cursor)
    (hcursor : cursor ≤ source.length)
    (hpart : closing.settled? source semantics cursor phrase = .ok part) :
    part.FitsAt source closing.use phrase.start := by
  have hsettled := eq_of_settled? hpart
  have hsuccess := success_of_settled? hpart
  rw [Phrase.FitsAt, landing_of_settled? hpart]
  simp only [Phrase.handedOn, hsuccess]
  cases closing with
  | accept =>
      have hstart : part.start = phrase.start :=
        (congrArg Phrase.start hsettled).trans rfl
      have hstop : part.stop = cursor := congrArg Phrase.stop hsettled
      have hleaf : part.IsLeaf source := {
        success := hsuccess
        start_le_stop := by rw [hstart, hstop]; exact htiled.start_le_stop
        stop_le_length := by rw [hstop]; exact hcursor
        children := congrArg Phrase.children hsettled }
      rw [← hstart]
      exact .of_isLeaf hleaf
  | acceptInner =>
      have hchildren : part.children = phrase.children :=
        (congrArg Phrase.children hsettled).trans rfl
      have hstop : part.stop = cursor := congrArg Phrase.stop hsettled
      simp only [use, succeeds, if_true, hchildren, hstop]
      exact htiled
  | _ =>
      -- The other ways of closing go back to the start and hand nothing on.
      have hstop : part.stop = phrase.start := congrArg Phrase.stop hsettled
      rw [hstop]
      exact .nil phrase.start

end Closing

/-! ## Terminals -/

namespace Effect

/-- The parts that an effect adds reach from `start` to where it leaves the cursor. -/
def FitsAt (source : Source) (start : Nat) (effect : Effect Value) : Prop :=
  Tiles source effect.parts start effect.stop

theorem FitsAt.applyTo {source : Source} {start : Nat} {effect : Effect Value}
    {phrase : Phrase Value} (hfits : effect.FitsAt source start)
    (htiled : phrase.TiledTo source start) :
    (effect.applyTo phrase).TiledTo source effect.stop :=
  htiled.append hfits

variable {source : Source} {terminal : Terminal} {position : Nat} {effect : Effect Value}

theorem fitsAt_of_ahead (heffect : Attempt.ahead source terminal position = .ok effect) :
    effect.FitsAt source position := by
  rw [Attempt.ahead_eq_ok, Except.ok.injEq] at heffect
  rw [← heffect]
  cases terminal.matchLength? source position <;> exact .nil position

theorem fitsAt_of_aheadNot
    (heffect : Attempt.aheadNot source terminal position = .ok effect) :
    effect.FitsAt source position := by
  rw [Attempt.aheadNot_eq_ok, Except.ok.injEq] at heffect
  rw [← heffect]
  cases terminal.matchLength? source position <;> exact .nil position

/-- What a terminal takes lies inside the source, also when it takes nothing. -/
theorem fitsAt_of_next (hposition : position ≤ source.length)
    (heffect : Attempt.next source terminal position = .ok effect) :
    effect.FitsAt source position := by
  rw [Attempt.next_eq_ok, Except.ok.injEq] at heffect
  rw [← heffect]
  cases hmatch : terminal.matchLength? source position with
  | none => exact .nil position
  | some length =>
      have hlength := Terminal.matchLength?_le hmatch
      by_cases hend : terminal = .endOfText
      · simp only [hend, if_true]
        exact .nil position
      · simp only [hend, if_false]
        have hleaf : (Phrase.ofTerminal position (position + length) :
            Phrase Value).IsLeaf source := {
          success := rfl
          start_le_stop := Nat.le_add_right position length
          stop_le_length := by simp only [Phrase.ofTerminal]; omega
          children := rfl }
        exact .of_isLeaf hleaf

end Effect

/-! ## The stack -/

/-- The top phrase starts with the source.  The innermost phrase is tiled up to the cursor,
every other one up to the start of the phrase opened inside it. -/
def Stack.Tiled (source : Source) (top : Phrase Value) : List (Frame Value) → Nat → Prop
  | [], cursor => top.start = 0 ∧ top.TiledTo source cursor
  | frame :: outer, cursor =>
      frame.phrase.TiledTo source cursor ∧ Tiled source top outer frame.phrase.start

namespace Stack

variable {source : Source} {top : Phrase Value} {frames : List (Frame Value)}
variable {cursor next : Nat}

theorem Tiled.cursor_le_length (htiled : Tiled source top frames cursor) :
    cursor ≤ source.length := by
  induction frames generalizing cursor with
  | nil =>
      obtain ⟨hstart, htop⟩ := htiled
      apply htop.stop_le_length
      rw [hstart]
      exact Nat.zero_le source.length
  | cons frame outer ih =>
      obtain ⟨hphrase, houter⟩ := htiled
      exact hphrase.stop_le_length (ih houter)

/-- A change of the innermost phrase that continues its tiling and keeps its start. -/
theorem Tiled.changeInnermost {change : Phrase Value → Phrase Value}
    (hstart : ∀ phrase, (change phrase).start = phrase.start)
    (hchange : ∀ phrase, phrase.TiledTo source cursor →
      (change phrase).TiledTo source next)
    (htiled : Tiled source top frames cursor) :
    let changed := Stack.changeInnermost change (top, frames)
    Tiled source changed.1 changed.2 next := by
  cases frames with
  | nil =>
      obtain ⟨htop, htiles⟩ := htiled
      exact ⟨(hstart top).trans htop, hchange top htiles⟩
  | cons frame outer =>
      obtain ⟨hphrase, houter⟩ := htiled
      refine ⟨hchange frame.phrase hphrase, ?_⟩
      rw [hstart frame.phrase]
      exact houter

end Stack

end Packrat
