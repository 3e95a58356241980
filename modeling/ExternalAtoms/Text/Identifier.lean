/-! # Identifiers

A predicate name is spelled as an identifier: any number of underscores, a lower-case letter, and
then letters, digits, underscores and primes. Letters and digits are those of ASCII; every other
character keeps a text from being an identifier.
-/
namespace ExternalAtoms.Text

def isIdentifierChar (c : Char) : Bool := c.isAlphanum || c == '_' || c == '\''

/-- What follows the leading underscores starts with a lower-case letter. -/
def isIdentifierBody : List Char → Bool
  | [] => false
  | c :: rest => c.isLower && rest.all isIdentifierChar

def isIdentifier (text : String) : Bool :=
  isIdentifierBody (text.toList.dropWhile (· == '_'))

end ExternalAtoms.Text
