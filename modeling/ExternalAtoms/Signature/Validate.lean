import ExternalAtoms.Signature.Basic
import ExternalAtoms.Signature.Fault
import ExternalAtoms.Text.Identifier

/-! # Well-formed signatures

A signature is well formed when its predicate is an identifier, a tuple input comes last, monotonic
and antimonotonic positions are predicate inputs and no position is both, and the finite outputs lie
within the output tuple. The conditions are checked in this order and the first that fails is
reported, at the first position where it fails.
-/
namespace ExternalAtoms.Signature

def checkPredicate (s : Signature) (plugin : String) : Except SignatureError Unit :=
  if s.predicate.isEmpty then .error (.emptyPredicate plugin)
  else if Text.isIdentifier s.predicate then .ok ()
  else .error (.invalidPredicate plugin s.predicate)

/-- The first tuple input that another input follows. -/
def misplacedTuple? (s : Signature) : Option Nat := s.inputs.dropLast.findIdx? (· == .tuple)

def checkInputs (s : Signature) : Except SignatureError Unit :=
  match s.misplacedTuple? with
  | some index => .error (.tupleNotLast s.predicate index)
  | none => .ok ()

def checkDeclared (s : Signature) (property : Monotonicity) (indices : List Nat) :
    Except SignatureError Unit :=
  match indices.find? fun index => s.inputs[index]? != some .predicate with
  | some index => .error (.notAPredicateInput s.predicate index property)
  | none => .ok ()

def checkConflict (s : Signature) : Except SignatureError Unit :=
  match s.properties.monotonic.find? s.properties.isAntimonotonic with
  | some index => .error (.conflictingMonotonicity s.predicate index)
  | none => .ok ()

def checkOutputs (s : Signature) : Except SignatureError Unit :=
  match s.properties.finiteOutputs.find? fun index => decide (s.outputArity ≤ index) with
  | some index => .error (.outputIndexOutOfRange s.predicate index s.outputArity)
  | none => .ok ()

def validate (s : Signature) (plugin : String) : Except SignatureError Unit := do
  s.checkPredicate plugin
  s.checkInputs
  s.checkDeclared .monotonic s.properties.monotonic
  s.checkDeclared .antimonotonic s.properties.antimonotonic
  s.checkConflict
  s.checkOutputs

end ExternalAtoms.Signature
