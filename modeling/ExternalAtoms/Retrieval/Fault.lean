import ExternalAtoms.Symbol.Fault

/-! # Why an evaluation fails

A call is refused before the atom is asked, the atom itself fails, its answer does not fit its
signature, or a symbol cannot be stored.
-/
namespace ExternalAtoms

inductive ExpectedLength where
  | exactly (n : Nat)
  | atLeast (n : Nat)
deriving DecidableEq, Repr

def ExpectedLength.text : ExpectedLength → String
  | exactly n => Nat.repr n
  | atLeast n => "at least " ++ Nat.repr n

inductive EvaluationError where
  | unknownAtom (predicate : String)
  | inputArity (predicate : String) (expected : ExpectedLength) (actual : Nat)
  | inputKind (predicate : String) (index : Nat) (symbol : String)
  | outputArity (predicate : String) (expected actual : Nat)
  | unexpectedUnknown (predicate : String)
  | plugin (predicate message : String)
  | store (fault : StoreError)
deriving DecidableEq, Repr

def EvaluationError.message : EvaluationError → String
  | unknownAtom predicate => "no external atom &" ++ predicate ++ " is registered"
  | inputArity predicate expected actual =>
    "&" ++ predicate ++ " expects " ++ expected.text ++ " input arguments, got " ++ Nat.repr actual
  | inputKind predicate index symbol =>
    "&" ++ predicate ++ ": input " ++ Nat.repr index ++ " has the wrong kind: " ++ symbol
  | outputArity predicate expected actual =>
    "&" ++ predicate ++ " returned a tuple of length " ++ Nat.repr actual ++
      ", output arity is " ++ Nat.repr expected
  | unexpectedUnknown predicate =>
    "&" ++ predicate ++ " returned unknown tuples but does not provide partial answers"
  | plugin predicate message => "&" ++ predicate ++ " failed: " ++ message
  | store fault => fault.message

end ExternalAtoms
