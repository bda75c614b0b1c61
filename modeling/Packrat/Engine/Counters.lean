import Packrat.Memo.Table

/-!
# Counters of a parse

How much work the most recent parse did, rule by rule, and what its memo tables
were used for.  Only named rules are counted.
-/

namespace Packrat

structure RuleCounters where
  /-- How often the body was entered. -/
  calls : Nat
  succeeded : Nat
  failed : Nat
  /-- How often a memoized result took the place of the body. -/
  reused : Nat
  /-- How often the body was entered where it had been entered before. -/
  rescanned : Nat
deriving DecidableEq

def RuleCounters.zero : RuleCounters := ⟨0, 0, 0, 0, 0⟩

structure Counters where
  rules : List (String × RuleCounters)
  /-- The rules and positions at which a body was entered. -/
  visited : List (String × Nat)
  /-- The counters of the tables by name, known once the parse is over. -/
  tables : List (String × TableCounters)
deriving DecidableEq

namespace Counters

def zero : Counters := ⟨[], [], []⟩

def rule (counters : Counters) (name : String) : RuleCounters :=
  (counters.rules.lookup name).getD .zero

/-- The counters of the first table with a name. -/
def table? (counters : Counters) (name : String) : Option TableCounters :=
  counters.tables.lookup name

/-- Changes the counters of one rule, which start from zero. -/
def changed (change : RuleCounters → RuleCounters) (name : String) :
    List (String × RuleCounters) → List (String × RuleCounters)
  | [] => [(name, change .zero)]
  | (other, counted) :: rest =>
      if other = name then (other, change counted) :: rest
      else (other, counted) :: changed change name rest

def changeRule (counters : Counters) (name : String)
    (change : RuleCounters → RuleCounters) : Counters :=
  { counters with rules := changed change name counters.rules }

def enter (counters : Counters) (name : String) (position : Nat) : Counters :=
  let again := counters.visited.contains (name, position)
  let counted := counters.changeRule name fun rule =>
    { rule with
      calls := rule.calls + 1
      rescanned := rule.rescanned + if again then 1 else 0 }
  if again then counted
  else { counted with visited := (name, position) :: counted.visited }

def finish (counters : Counters) (name : String) (success : Bool) : Counters :=
  counters.changeRule name fun rule =>
    if success then { rule with succeeded := rule.succeeded + 1 }
    else { rule with failed := rule.failed + 1 }

def reuse (counters : Counters) (name : String) : Counters :=
  counters.changeRule name fun rule => { rule with reused := rule.reused + 1 }

end Counters

/-- The counters of every rule and of every table that has been registered; a table
has none before a parse is over. -/
structure Summary where
  rules : List (String × RuleCounters)
  tables : List (String × Option TableCounters)
deriving DecidableEq

end Packrat
