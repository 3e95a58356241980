/-! # Signatures

What is fixed about an external atom: its predicate, the kinds of its inputs, the length of its
output tuples, and optional properties. A tuple input takes any number of trailing arguments.
-/
namespace ExternalAtoms

inductive InputKind where
  /-- The name of a predicate whose extension the atom reads. -/
  | predicate
  | constant
  | tuple
deriving DecidableEq, Repr

structure Properties where
  /-- The atom may report unknown tuples on partial interpretations. -/
  partialAnswers : Bool := false
  learning : Bool := true
  /-- Output positions with a finite domain. -/
  finiteOutputs : List Nat := []
  monotonic : List Nat := []
  antimonotonic : List Nat := []
deriving DecidableEq, Repr

namespace Properties

def isMonotonic (p : Properties) (index : Nat) : Bool := p.monotonic.contains index

def isAntimonotonic (p : Properties) (index : Nat) : Bool := p.antimonotonic.contains index

end Properties

structure Signature where
  predicate : String
  inputs : List InputKind
  outputArity : Nat
  properties : Properties := {}
deriving DecidableEq, Repr

namespace Signature

def hasTupleInput (s : Signature) : Bool := s.inputs.getLast? == some .tuple

def fixedInputs (s : Signature) : Nat :=
  if s.hasTupleInput then s.inputs.length - 1 else s.inputs.length

/-- The kind of an argument, the arguments of a trailing tuple being counted one by one. -/
def kindAt (s : Signature) (index : Nat) : Option InputKind :=
  match s.inputs[index]? with
  | some kind => some kind
  | none => if s.hasTupleInput then some .tuple else none

def acceptsLength (s : Signature) (count : Nat) : Bool :=
  if s.hasTupleInput then decide (s.fixedInputs ≤ count) else count == s.inputs.length

end Signature

end ExternalAtoms
