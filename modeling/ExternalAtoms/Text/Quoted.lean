/-! # Quoted strings

A string constant is written between double quotes. Inside, a quote and a backslash are preceded by
a backslash and a line break is written as a backslash and an `n`. Reading is more generous than
writing: a backslash before any other character stands for that character, and one that ends the
body stands for itself.
-/
namespace ExternalAtoms.Text

def escapeQuoted (c : Char) : List Char :=
  if c = '"' then ['\\', '"']
  else if c = '\\' then ['\\', '\\']
  else if c = '\n' then ['\\', 'n']
  else [c]

def encodeQuoted (body : List Char) : List Char := '"' :: (body.flatMap escapeQuoted ++ ['"'])

def isQuotedList (cs : List Char) : Bool :=
  decide (2 ≤ cs.length) && cs.head? == some '"' && cs.getLast? == some '"'

def decodeBody : List Char → List Char
  | [] => []
  | ['\\'] => ['\\']
  | '\\' :: 'n' :: rest => '\n' :: decodeBody rest
  | '\\' :: c :: rest => c :: decodeBody rest
  | c :: rest => c :: decodeBody rest

/-- A text that is not quoted stands for itself. -/
def decodeQuoted (cs : List Char) : List Char :=
  if isQuotedList cs then decodeBody cs.tail.dropLast else cs

def isQuoted (text : String) : Bool := isQuotedList text.toList

def quote (text : String) : String := String.ofList (encodeQuoted text.toList)

def unquote (text : String) : String := String.ofList (decodeQuoted text.toList)

end ExternalAtoms.Text
