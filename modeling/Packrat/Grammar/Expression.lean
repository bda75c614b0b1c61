import Packrat.Grammar.Terminal

/-!
# Parsing expression grammars

Expressions are built from terminals and rule references by choice, option,
repetition, sequence and the two predicates.  Sequences and predicates open a
phrase of their own, plainly or through a memo table.  A grammar lists its rules,
the first of which is the root, and the memo tables that its rules and expressions
refer to by index.
-/

namespace Packrat

/-- How an inner expression opens its phrase. -/
inductive Opening where
  | plain (diagnosis : String)
  | memoized (table : Nat)
deriving DecidableEq

inductive Expression where
  | terminal (terminal : Terminal)
  | ahead (terminal : Terminal)
  | aheadNot (terminal : Terminal)
  | rule (name : String)
  /-- The first alternative that matches. -/
  | choice (alternatives : List Expression)
  | optional (body : Expression)
  | star (body : Expression)
  | plus (body : Expression)
  | sequence (opening : Opening) (parts : List Expression)
  /-- Matches without taking anything where its argument matches. -/
  | andPredicate (opening : Opening) (argument : Expression)
  /-- Matches without taking anything where its argument fails. -/
  | notPredicate (opening : Opening) (argument : Expression)

structure Rule where
  name : String
  diagnosis : String
  /-- The memo table of a memoized rule. -/
  table : Option Nat
  body : List Expression

/-- The name under which a memo table is counted, and the diagnosis of the phrases
it opens. -/
structure TableLabel where
  name : String
  diagnosis : String
deriving DecidableEq

structure Grammar where
  rules : List Rule
  tables : List TableLabel

namespace Grammar

def rule? (grammar : Grammar) (name : String) : Option Rule :=
  grammar.rules.find? (·.name == name)

end Grammar

/-- A rule before it has a memo table. -/
structure RuleDraft where
  name : String
  diagnosis : String
  memoized : Bool
  body : List Expression

namespace Grammar

/-- Gives the memoized rules consecutive tables, the first of which is `next`. -/
def numbered (next : Nat) : List RuleDraft → List Rule
  | [] => []
  | draft :: rest =>
      if draft.memoized then
        ⟨draft.name, draft.diagnosis, some next, draft.body⟩ :: numbered (next + 1) rest
      else ⟨draft.name, draft.diagnosis, none, draft.body⟩ :: numbered next rest

def ruleTables (drafts : List RuleDraft) : List TableLabel :=
  (drafts.filter RuleDraft.memoized).map fun draft => ⟨draft.name, draft.diagnosis⟩

/-- The tables of the memoized rules come first, and those of the inner expressions
after them. -/
def ofDrafts (drafts : List RuleDraft) (innerTables : List TableLabel) : Grammar :=
  ⟨numbered 0 drafts, ruleTables drafts ++ innerTables⟩

end Grammar

end Packrat
