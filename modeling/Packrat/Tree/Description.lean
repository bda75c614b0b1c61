import Packrat.Tree.Phrase

/-!
# Descriptions of phrases

A phrase is written out as a record, with the phrases below it in the same form.
Failure records are left out.
-/

namespace Packrat

variable {Value : Type}

def describedFlag : Bool → String
  | true => "true"
  | false => "false"

def describedOption (describe : Value → String) : Option Value → String
  | none => "None"
  | some value => "Some(" ++ describe value ++ ")"

def describedList (items : List String) : String :=
  "[" ++ String.intercalate ", " items ++ "]"

namespace Phrase

mutual

def describe (describeValue : Value → String) : Phrase Value → String
  | ⟨name, _, start, stop, success, children, value, _⟩ =>
      "Phrase \x7b name: " ++ Text.quoted name ++ ", span: " ++ toString start ++ ".." ++
        toString stop ++ ", success: " ++ describedFlag success ++ ", value: " ++
        describedOption describeValue value ++ ", rhs: " ++
        describedList (describeAll describeValue children) ++ " \x7d"

def describeAll (describeValue : Value → String) : List (Phrase Value) → List String
  | [] => []
  | phrase :: rest => describe describeValue phrase :: describeAll describeValue rest

end

end Phrase

end Packrat
