import Packrat.Tree.Description

/-!
# Semantic values

The values that the stock actions compute: words of 64 bits with sign, whose
arithmetic wraps, texts, and lists of values.
-/

namespace Packrat

inductive SemanticValue where
  | int (number : Int64)
  | text (content : String)
  | list (items : List SemanticValue)

namespace SemanticValue

mutual

def describe : SemanticValue → String
  | .int number => "Int(" ++ toString number.toInt ++ ")"
  | .text content => "Text(" ++ Text.quoted content ++ ")"
  | .list items => "List(" ++ describedList (describeAll items) ++ ")"

def describeAll : List SemanticValue → List String
  | [] => []
  | item :: rest => describe item :: describeAll rest

end

end SemanticValue

end Packrat
