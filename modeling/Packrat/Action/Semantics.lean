import Packrat.Engine.Fault
import Packrat.Tree.Phrase

/-!
# Semantics

At most one action belongs to a rule name.  It runs when a phrase of that rule is
accepted, sees the phrase with the parts it matched, and may put a value on it.
It returns that value and nothing else, so it has no way to influence the parse.
-/

namespace Packrat

/-- The value that an accepted phrase is given, if any. -/
abbrev Action (Value : Type) := Source → Phrase Value → Except Fault (Option Value)

/-- The actions in the order in which their rules first received one. -/
structure Semantics (Value : Type) where
  actions : List (String × Action Value)

namespace Semantics

variable {Value : Type}

def empty : Semantics Value := ⟨[]⟩

def action? (semantics : Semantics Value) (rule : String) : Option (Action Value) :=
  semantics.actions.lookup rule

def hasAction (semantics : Semantics Value) (rule : String) : Bool :=
  (semantics.action? rule).isSome

/-- Gives a rule its action, in place of an earlier one. -/
def on (semantics : Semantics Value) (rule : String) (action : Action Value) :
    Semantics Value :=
  if semantics.hasAction rule then
    ⟨semantics.actions.map fun entry => if entry.1 = rule then (rule, action) else entry⟩
  else ⟨semantics.actions ++ [(rule, action)]⟩

/-- The names of the rules with an action, ordered by code point. -/
def ruleNames (semantics : Semantics Value) : List String :=
  (semantics.actions.map Prod.fst).mergeSort fun earlier later => !(later < earlier : Bool)

def describe (semantics : Semantics Value) : String :=
  "Semantics \x7b rules: [" ++
    String.intercalate ", " (semantics.ruleNames.map Text.quoted) ++ "] \x7d"

end Semantics

end Packrat
