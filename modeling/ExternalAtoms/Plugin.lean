import ExternalAtoms.Retrieval.Program
import ExternalAtoms.Retrieval.Query

/-! # Plugins

An external atom is a signature with the program that answers its queries. A plugin is a named
collection of external atoms that are loaded together.
-/
namespace ExternalAtoms

structure ExternalAtom where
  signature : Signature
  retrieve : Query → Retrieval Answer

def ExternalAtom.predicate (a : ExternalAtom) : String := a.signature.predicate

/-- Asks an external atom outside of an evaluation. -/
def ExternalAtom.ask (a : ExternalAtom) (q : Query) (table : SymbolTable) :
    Except EvaluationError Answer × Workspace :=
  (a.retrieve q).run ⟨a.signature, q.input⟩ (.ofTable table)

structure Plugin where
  name : String
  atoms : List ExternalAtom

end ExternalAtoms
