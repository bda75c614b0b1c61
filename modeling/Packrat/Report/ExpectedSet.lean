import Packrat.Grammar.Terminal

/-!
# Expected sets

The labels of a report without repetitions, each at the place of its first
appearance.  A label that begins with the negation mark stands for something that
was present and must not be; the others stand for something that was expected.
-/

namespace Packrat

structure ExpectedSet where
  labels : List String
deriving DecidableEq

namespace ExpectedSet

def ofLabels (labels : List String) : ExpectedSet :=
  ⟨labels.eraseDups⟩

/-- The label behind the negation mark, for a negated label. -/
def negated? (label : String) : Option String :=
  if Terminal.negationMark.toList.isPrefixOf label.toList then
    some (String.ofList (label.toList.drop Terminal.negationMark.length))
  else none

def expected (set : ExpectedSet) : List String :=
  set.labels.filter fun label => (negated? label).isNone

def notExpected (set : ExpectedSet) : List String :=
  set.labels.filterMap negated?

def isEmpty (set : ExpectedSet) : Bool :=
  set.labels.isEmpty

def alternatives (labels : List String) : String :=
  String.intercalate " or " labels

/-- One clause for what was expected and one for what was not, each present if it
has something to say. -/
def text (set : ExpectedSet) : String :=
  match set.expected, set.notExpected with
  | [], [] => "expected <unreported>"
  | expected, [] => "expected " ++ alternatives expected
  | [], notExpected => "not expected " ++ alternatives notExpected
  | expected, notExpected =>
      "expected " ++ alternatives expected ++ "; not expected " ++ alternatives notExpected

end ExpectedSet

end Packrat
