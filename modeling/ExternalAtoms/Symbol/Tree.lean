/-! # Term trees

The finite tree that a handle denotes, with names in place of keys and subtrees in place of handles,
and its written form: a name, an integer, or a name with its arguments between parentheses.
-/
namespace ExternalAtoms

inductive Tree where
  | constant (name : String)
  | integer (value : Int64)
  | function (name : String) (args : List Tree)
deriving Repr

namespace Tree

def integerText (value : Int) : String :=
  if value < 0 then "-" ++ Nat.repr value.natAbs else Nat.repr value.natAbs

mutual

def text : Tree → String
  | constant name => name
  | integer value => integerText value.toInt
  | function name args => name ++ "(" ++ argumentsText args ++ ")"

/-- Commas stand between the arguments. -/
def argumentsText : List Tree → String
  | [] => ""
  | [arg] => arg.text
  | arg :: rest => arg.text ++ "," ++ argumentsText rest

end

end Tree

end ExternalAtoms
