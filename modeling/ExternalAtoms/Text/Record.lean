/-! # Lists and records as text

Diagnostics write a list between square brackets and a record as its name with its fields between
braces; commas stand between the items.
-/
namespace ExternalAtoms.Text

def showList (items : List String) : String := "[" ++ String.intercalate ", " items ++ "]"

def showRecord (name : String) (fields : List (String × String)) : String :=
  let shown := fields.map fun field => field.1 ++ ": " ++ field.2
  name ++ " \x7b " ++ String.intercalate ", " shown ++ " \x7d"

def showBool (b : Bool) : String := if b then "true" else "false"

end ExternalAtoms.Text
