import ExternalAtoms.Evaluation.Settings
import ExternalAtoms.Plugin

/-! # Checking calls and answers

Before an atom is asked, its input must have the length that the signature takes, every argument
must be a known positive symbol, and a predicate argument must be a constant spelled as an
identifier. The check stores nothing. Afterwards every tuple must have the output length, and
unknown tuples are for atoms that give partial answers; from other atoms they are an error under
strict settings and are dropped otherwise.
-/
namespace ExternalAtoms

namespace Signature

def expectedLength (s : Signature) : ExpectedLength :=
  if s.hasTupleInput then .atLeast s.fixedInputs else .exactly s.inputs.length

def acceptsArgument (s : Signature) (table : SymbolTable) (index : Nat) (arg : Symbol) : Bool :=
  !arg.isNegated && table.isKnown arg &&
    (s.kindAt index != some .predicate || table.isPredicateConstant arg)

/-- Checks the arguments from a position on; the leftmost wrong one is reported. -/
def checkArguments (s : Signature) (table : SymbolTable) (index : Nat) :
    List Symbol → Except EvaluationError Unit
  | [] => .ok ()
  | arg :: rest =>
    if s.acceptsArgument table index arg then s.checkArguments table (index + 1) rest
    else .error (.inputKind s.predicate index (table.describe arg))

def checkInput (s : Signature) (table : SymbolTable) (input : List Symbol) :
    Except EvaluationError Unit :=
  if s.acceptsLength input.length then s.checkArguments table 0 input
  else .error (.inputArity s.predicate s.expectedLength input.length)

/-- The answer that counts, and the number of tuples dropped from the one given. -/
def checkAnswer (s : Signature) (settings : Settings) (answer : Answer) :
    Except EvaluationError (Answer × Nat) :=
  let tuples := answer.trueTuples.toList ++ answer.unknownTuples.toList
  match tuples.find? fun tuple => tuple.length != s.outputArity with
  | some tuple => .error (.outputArity s.predicate s.outputArity tuple.length)
  | none =>
    if answer.unknownTuples.isEmpty || s.properties.partialAnswers then .ok (answer, 0)
    else if settings.strict then .error (.unexpectedUnknown s.predicate)
    else .ok (answer.dropUnknown, answer.unknownTuples.size)

end Signature

end ExternalAtoms
