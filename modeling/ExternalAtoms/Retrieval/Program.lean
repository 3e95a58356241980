import ExternalAtoms.Answer
import ExternalAtoms.Nogood.Check
import ExternalAtoms.Retrieval.Fault
import ExternalAtoms.Retrieval.Invocation
import ExternalAtoms.Symbol.Request

/-! # Retrieval programs

What an external atom does when it is asked, as a tree of actions. Besides computing an answer it
can store symbols, store its own output atoms, submit nogoods and read the symbol table; it has no
other way to touch the session. Submitted nogoods stay pending until the evaluation as a whole
succeeds.
-/
namespace ExternalAtoms

inductive Action where
  | store (request : StoreRequest)
  | outputAtom (tuple : Tuple)
  | learn (n : Nogood)
  | read

abbrev Action.Reply : Action → Type
  | store request => request.Reply
  | outputAtom _ => Except StoreError Symbol
  | learn _ => Except StoreError Unit
  | read => SymbolTable

inductive Retrieval (α : Type) where
  | done (result : Except EvaluationError α)
  | perform (action : Action) (next : action.Reply → Retrieval α)

/-- The state that a retrieval works on. -/
structure Workspace where
  table : SymbolTable
  pending : Array Nogood

def Workspace.ofTable (table : SymbolTable) : Workspace := ⟨table, #[]⟩

def Workspace.learn (w : Workspace) (n : Nogood) : Except StoreError Unit × Workspace :=
  let checked := w.table.checkNogood n
  match checked.1 with
  | .error e => (.error e, { w with table := checked.2 })
  | .ok () => (.ok (), ⟨checked.2, w.pending.push n⟩)

def Action.run (call : Invocation) :
    (action : Action) → Workspace → action.Reply × Workspace
  | store request, w =>
    let answered := request.run w.table
    (answered.1, { w with table := answered.2 })
  | outputAtom tuple, w =>
    let stored := call.storeOutputAtom w.table tuple
    (stored.1, { w with table := stored.2 })
  | learn n, w => w.learn n
  | read, w => (w.table, w)

namespace Retrieval

variable {α β : Type}

def run (call : Invocation) : Retrieval α → Workspace → Except EvaluationError α × Workspace
  | done result, w => (result, w)
  | perform action next, w =>
    let answered := action.run call w
    (next answered.1).run call answered.2

protected def bind : Retrieval α → (α → Retrieval β) → Retrieval β
  | done (.ok value), k => k value
  | done (.error e), _ => done (.error e)
  | perform action next, k => perform action fun reply => (next reply).bind k

instance : Monad Retrieval where
  pure value := done (.ok value)
  bind := Retrieval.bind

def fail (e : EvaluationError) : Retrieval α := done (.error e)

/-- A refused symbol fails the whole evaluation. -/
def ofStored (result : Except StoreError α) : Retrieval α := done (result.mapError .store)

def constant (text : String) : Retrieval Symbol := perform (.store (.constant text)) pure

def string (text : String) : Retrieval Symbol := perform (.store (.string text)) pure

def integer (value : Int64) : Retrieval Symbol := perform (.store (.integer value)) pure

def atom (tuple : Tuple) : Retrieval Symbol := perform (.store (.atom tuple)) ofStored

def negate (s : Symbol) : Retrieval Symbol := perform (.store (.negate s)) ofStored

def head (s : Symbol) : Retrieval (Option Symbol) := perform (.store (.head s)) pure

def outputAtom (tuple : Tuple) : Retrieval Symbol := perform (.outputAtom tuple) ofStored

def learn (n : Nogood) : Retrieval Unit := perform (.learn n) ofStored

def read : Retrieval SymbolTable := perform .read pure

end Retrieval

end ExternalAtoms
