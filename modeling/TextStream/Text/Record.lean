/-!
# Records in diagnostics

A record is shown as its name and its fields in order, each with its name.
-/

namespace TextStream.Text

def recordText (name : String) (fields : List (String × String)) : String :=
  name ++ " \x7b " ++ String.intercalate ", " (fields.map fun f => f.1 ++ ": " ++ f.2) ++ " \x7d"

def optionText : Option String → String
  | none => "None"
  | some text => "Some(" ++ text ++ ")"

end TextStream.Text
