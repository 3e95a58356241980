import ExternalAtoms.Text.GraphemeExtend
import ExternalAtoms.Text.Unprintable

/-! # Texts shown in diagnostics

A diagnostic shows a text between double quotes so that every character of it can be seen. Quotes
and backslashes are preceded by a backslash, the tab, the two line breaks and the null character
have short escapes, and any other character that has no printed form, or that would attach to its
neighbour, is given by its code point in lower-case hexadecimal digits.
-/
namespace ExternalAtoms.Text

def codePointEscape (c : Char) : List Char :=
  ['\\', 'u', Char.ofNat 0x7b] ++ Nat.toDigits 16 c.toNat ++ [Char.ofNat 0x7d]

def escapeShown (c : Char) : List Char :=
  if c = Char.ofNat 0 then ['\\', '0']
  else if c = '\t' then ['\\', 't']
  else if c = '\n' then ['\\', 'n']
  else if c = '\r' then ['\\', 'r']
  else if c = '"' then ['\\', '"']
  else if c = '\\' then ['\\', '\\']
  else if isUnprintable c || isAttachingMark c then codePointEscape c
  else [c]

def showEscaped (text : String) : String :=
  String.ofList ('"' :: (text.toList.flatMap escapeShown ++ ['"']))

end ExternalAtoms.Text
