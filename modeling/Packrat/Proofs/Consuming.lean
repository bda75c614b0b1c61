import Packrat.Proofs.Derivation

/-!
# Expressions that consume

What matches never ends before the place where it begins, and where it has moved on, it ends
inside the source.  Of some expressions one can see by their shape that they move on whenever
they match.
-/

namespace Packrat

/-- The result is a failure, or a match that ends in place or further on inside the source. -/
def Source.Moves (source : Source) (position : Nat) (result : Option Nat) : Prop :=
  ∀ stop, result = some stop → stop = position ∨ position < stop ∧ stop ≤ source.length

namespace Source.Moves

variable {source : Source} {position middle : Nat} {result : Option Nat}

theorem fails (source : Source) (position : Nat) : source.Moves position none :=
  nofun

theorem inPlace (source : Source) (position : Nat) : source.Moves position (some position) := by
  intro stop hstop
  exact .inl (Option.some.inj hstop).symm

theorem trans (hfirst : source.Moves position (some middle))
    (hsecond : source.Moves middle result) : source.Moves position result := by
  intro stop hstop
  have hbefore := hfirst middle rfl
  have hafter := hsecond stop hstop
  omega

/-- A failure that is passed over leaves the cursor in place. -/
theorem getD (hmoves : source.Moves position result) :
    source.Moves position (some (result.getD position)) := by
  cases result with
  | none => exact .inPlace source position
  | some stop => exact hmoves

theorem le {stop : Nat} (hmoves : source.Moves position (some stop)) : position ≤ stop := by
  rcases hmoves stop rfl with rfl | hfurther
  · exact Nat.le_refl _
  · exact Nat.le_of_lt hfurther.1

end Source.Moves

namespace Terminal.Takes

theorem moves {source : Source} {terminal : Terminal} {position length : Nat}
    (htakes : terminal.Takes (source.rest position) length) :
    source.Moves position (some (position + length)) := by
  intro stop hstop
  obtain rfl := Option.some.inj hstop
  have hlength := htakes.le_length
  rw [source.length_rest] at hlength
  omega

/-- All terminals but two take something. -/
theorem length_pos {terminal : Terminal} {rest : List Char} {length : Nat}
    (htakes : terminal.Takes rest length) (hend : terminal ≠ .endOfText)
    (hempty : terminal ≠ .text "") : 0 < length := by
  cases htakes with
  | text wanted rest =>
      apply List.length_pos_iff.mpr
      intro hnil
      apply hempty
      rw [String.toList_eq_nil_iff.mp hnil]
  | endOfText => contradiction
  | _ => exact Nat.one_pos

end Terminal.Takes

namespace Grammar

/-! ## The cursor never goes back -/

mutual

theorem Derives.moves {grammar : Grammar} {source : Source} :
    ∀ {expression : Expression} {position : Nat} {result : Option Nat},
      grammar.Derives source expression position result → source.Moves position result
  | _, _, _, .terminal htakes => htakes.moves
  | _, position, _, .terminalFails _ => .fails source position
  | _, position, _, .ahead _ => .inPlace source position
  | _, position, _, .aheadFails _ => .fails source position
  | _, position, _, .aheadNot _ => .inPlace source position
  | _, position, _, .aheadNotFails _ => .fails source position
  | _, _, _, .rule _ hbody => hbody.moves
  | _, _, _, .choice hany => hany.moves
  | _, _, _, .optional hbody => hbody.moves.getD
  | _, position, _, .starEnds _ => .inPlace source position
  | _, position, _, .starStalls _ => .inPlace source position
  | _, _, _, .starAdvances hbody _ hagain => hbody.moves.trans hagain.moves
  | _, _, _, .plus hbody hagain => hbody.moves.trans hagain.moves
  | _, position, _, .plusFails _ => .fails source position
  | _, _, _, .sequence hparts => hparts.moves
  | _, position, _, .andPredicate _ => .inPlace source position
  | _, position, _, .andPredicateFails _ => .fails source position
  | _, position, _, .notPredicate _ => .inPlace source position
  | _, position, _, .notPredicateFails _ => .fails source position

theorem DerivesAll.moves {grammar : Grammar} {source : Source} :
    ∀ {items : List Expression} {position : Nat} {result : Option Nat},
      grammar.DerivesAll source items position result → source.Moves position result
  | _, _, _, .nil position => .inPlace source position
  | _, _, _, .cons hfirst hothers => hfirst.moves.trans hothers.moves
  | _, position, _, .fails _ _ => .fails source position

theorem DerivesAny.moves {grammar : Grammar} {source : Source} :
    ∀ {items : List Expression} {position : Nat} {result : Option Nat},
      grammar.DerivesAny source items position result → source.Moves position result
  | _, _, _, .nil position => .fails source position
  | _, _, _, .first _ hfirst => hfirst.moves
  | _, _, _, .later _ hothers => hothers.moves

end

/-! ## Expressions that move on -/

/-- The shape of the expression guarantees that a match moves the cursor on. -/
inductive Consuming (grammar : Grammar) : Expression → Prop
  | terminal {terminal : Terminal} (hend : terminal ≠ .endOfText)
      (hempty : terminal ≠ .text "") : Consuming grammar (.terminal terminal)
  | rule {name : String} {rule : Rule} {part : Expression}
      (hrule : grammar.rule? name = some rule) (hmember : part ∈ rule.body)
      (hpart : Consuming grammar part) : Consuming grammar (.rule name)
  | choice {alternatives : List Expression}
      (halternatives : ∀ alternative ∈ alternatives, Consuming grammar alternative) :
      Consuming grammar (.choice alternatives)
  | plus {body : Expression} (hbody : Consuming grammar body) : Consuming grammar (.plus body)
  | sequence {opening : Opening} {parts : List Expression} {part : Expression}
      (hmember : part ∈ parts) (hpart : Consuming grammar part) :
      Consuming grammar (.sequence opening parts)

variable {grammar : Grammar} {source : Source} {expression part : Expression}
variable {items : List Expression} {position stop : Nat}

/-- What matches as a choice matches as one of its alternatives. -/
theorem DerivesAny.exists_mem (hany : grammar.DerivesAny source items position (some stop)) :
    ∃ item ∈ items, grammar.Derives source item position (some stop) := by
  induction items generalizing position with
  | nil => cases hany
  | cons item rest ih =>
      cases hany with
      | first _ hfirst => exact ⟨item, List.mem_cons_self, hfirst⟩
      | later _ hothers =>
          obtain ⟨other, hother, hderives⟩ := ih hothers
          exact ⟨other, List.mem_cons_of_mem item hother, hderives⟩

/-- One part that moves on is enough, since the others never go back. -/
theorem DerivesAll.lt_of_mem (hall : grammar.DerivesAll source items position (some stop))
    (hmember : part ∈ items)
    (hpart : ∀ {start finish}, grammar.Derives source part start (some finish) →
      start < finish) : position < stop := by
  induction items generalizing position with
  | nil => contradiction
  | cons item rest ih =>
      cases hall with
      | @cons _ _ _ middle _ hfirst hothers =>
          rcases List.mem_cons.mp hmember with rfl | hrest
          · exact Nat.lt_of_lt_of_le (hpart hfirst) hothers.moves.le
          · exact Nat.lt_of_le_of_lt hfirst.moves.le (ih hothers hrest)

theorem Consuming.lt (hconsuming : grammar.Consuming expression)
    (hderives : grammar.Derives source expression position (some stop)) : position < stop := by
  induction hconsuming generalizing position stop with
  | terminal hend hempty =>
      cases hderives with
      | terminal htakes =>
          have hlength := htakes.length_pos hend hempty
          omega
  | rule hrule hmember _ ih =>
      cases hderives with
      | rule hfound hbody =>
          obtain rfl := Option.some.inj (hrule.symm.trans hfound)
          exact hbody.lt_of_mem hmember ih
  | choice _ ih =>
      cases hderives with
      | choice hany =>
          obtain ⟨alternative, hmember, halternative⟩ := hany.exists_mem
          exact ih alternative hmember halternative
  | plus _ ih =>
      cases hderives with
      | plus hbody hagain => exact Nat.lt_of_lt_of_le (ih hbody) hagain.moves.le
  | sequence hmember _ ih =>
      cases hderives with
      | sequence hparts => exact hparts.lt_of_mem hmember ih

end Grammar

end Packrat
