/-! # Why a symbol cannot be stored or used

Each cause carries what its message shows. Symbols are kept as the text they had when the fault
arose, because a handle that was unknown then may become known later.
-/
namespace ExternalAtoms

inductive TupleFault where
  | empty
  | badHead (symbol : String)
  | negatedArgument (symbol : String)
  | outputLength (length : Nat) (predicate : String) (arity : Nat)
deriving DecidableEq, Repr

inductive StoreError where
  | malformedTuple (fault : TupleFault)
  | notALiteral (symbol : String)
  | notAnAtom (symbol : String)
  | emptyNogood
  | unknownSymbol (index : Nat)
deriving DecidableEq, Repr

def TupleFault.message : TupleFault → String
  | empty => "empty tuple"
  | badHead symbol => "head " ++ symbol ++ " is not a predicate name"
  | negatedArgument symbol => "argument " ++ symbol ++ " is a negated literal"
  | outputLength length predicate arity =>
    "output tuple of length " ++ Nat.repr length ++ " for &" ++ predicate ++
      " with output arity " ++ Nat.repr arity

def StoreError.message : StoreError → String
  | malformedTuple fault => "malformed tuple: " ++ fault.message
  | notALiteral symbol =>
    "symbol " ++ symbol ++ " is not a literal and cannot be negated or learned"
  | notAnAtom symbol => "symbol " ++ symbol ++ " is not an atom"
  | emptyNogood => "an empty nogood would make every interpretation inconsistent"
  | unknownSymbol index => "unknown symbol handle #" ++ Nat.repr index

end ExternalAtoms
