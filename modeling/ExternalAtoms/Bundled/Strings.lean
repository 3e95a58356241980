import ExternalAtoms.Bundled.Operand

/-! # String atoms

Joining, measuring and cutting texts. Lengths and positions count characters. A negative start or
length counts as zero, and what lies beyond the end of a text is left out.
-/
namespace ExternalAtoms.Bundled

def concat (q : Query) : Retrieval Answer := do
  let operands ← readOperands q.input
  let s ← .string (joinTexts operands)
  return .ofTuples [[s]]

/-- All operands joined; a string only if one of them is. -/
def joinOperands (q : Query) : Retrieval Answer := do
  let operands ← readOperands q.input
  let s ← storeText (joinTexts operands) (operands.any Operand.quoted)
  return .ofTuples [[s]]

def strlen (q : Query) : Retrieval Answer := do
  let s ← argument q 0 "strlen" "missing input"
  let operand ← readOperand s
  let n ← .integer (Int64.ofNat operand.text.length)
  return .ofTuples [[n]]

/-- At most `count` characters of a text from a position on. -/
def cutText (text : String) (start count : Int64) : String :=
  String.ofList ((text.toList.drop start.toInt.toNat).take count.toInt.toNat)

def substr (q : Query) : Retrieval Answer := do
  let s ← argument q 0 "substr" "missing input"
  let operand ← readOperand s
  let start ← integerArgument q 1 "substr"
  let count ← integerArgument q 2 "substr"
  let part ← storeText (cutText operand.text start count) operand.quoted
  return .ofTuples [[part]]

end ExternalAtoms.Bundled
