import ExternalAtoms.Signature.Basic
import ExternalAtoms.Symbol.Store
import ExternalAtoms.Symbol.Tuple

/-! # Output atoms

Under a given input, each output tuple of an external atom is stood for by an ordinary atom. Its
predicate is named after the external atom and the number of arguments, and its arguments are the
input followed by the tuple.
-/
namespace ExternalAtoms

def replacementName (predicate : String) (arity : Nat) : String :=
  "aux_t_" ++ Nat.repr arity ++ "_" ++ predicate

/-- An external atom with its input arguments bound. -/
structure Invocation where
  signature : Signature
  input : List Symbol

namespace Invocation

def storeOutputAtom (call : Invocation) (table : SymbolTable) (tuple : Tuple) :
    Except StoreError Symbol × SymbolTable :=
  if tuple.length = call.signature.outputArity then
    let args := call.input ++ tuple
    table.function (replacementName call.signature.predicate args.length) args
  else
    (.error (.malformedTuple (.outputLength tuple.length call.signature.predicate
      call.signature.outputArity)), table)

def storeOutputAtoms (call : Invocation) (table : SymbolTable) :
    List Tuple → Except StoreError (List Symbol) × SymbolTable
  | [] => (.ok [], table)
  | tuple :: rest =>
    let stored := call.storeOutputAtom table tuple
    match stored.1 with
    | .error e => (.error e, stored.2)
    | .ok output =>
      let others := call.storeOutputAtoms stored.2 rest
      (others.1.map (output :: ·), others.2)

end Invocation

end ExternalAtoms
