import ExternalAtoms.Evaluation.Check
import ExternalAtoms.Evaluation.Learning

/-! # Attempting an evaluation

An attempt checks the input, asks the atom, checks its answer, derives nogoods and stores the output
atoms. It can fail at each of these stages. Whatever happens it touches the symbol table only: the
nogoods of a draft are those that are still to be learned.
-/
namespace ExternalAtoms

/-- A successful attempt, not yet committed. -/
structure Draft where
  answer : Answer
  outputs : List (Symbol × Truth)
  submitted : List Nogood
  derived : List Nogood
  provisional : Bool

structure Attempt where
  result : Except EvaluationError Draft
  dropped : Nat
  table : SymbolTable

namespace Invocation

def isProvisional (call : Invocation) (i : Interpretation) : Bool :=
  i.isPartial && !call.signature.properties.partialAnswers

def learns (call : Invocation) (settings : Settings) : Bool :=
  settings.learning && call.signature.properties.learning

/-- The output atoms of an answer, the true tuples before the unknown ones. -/
def storeAnswer (call : Invocation) (answer : Answer) (reported : Truth) (table : SymbolTable) :
    Except StoreError (List (Symbol × Truth)) × SymbolTable :=
  let settled := call.storeOutputAtoms table answer.trueTuples.toList
  match settled.1 with
  | .error e => (.error e, settled.2)
  | .ok settledAtoms =>
    let unsettled := call.storeOutputAtoms settled.2 answer.unknownTuples.toList
    let pairs := fun unsettledAtoms : List Symbol =>
      settledAtoms.map (·, reported) ++ unsettledAtoms.map (·, Truth.unknown)
    (unsettled.1.map pairs, unsettled.2)

def conclude (call : Invocation) (settings : Settings) (i : Interpretation) (answer : Answer)
    (submitted : List Nogood) (table : SymbolTable) :
    Except EvaluationError Draft × SymbolTable :=
  let learned :=
    if call.learns settings then call.deriveNogoods i answer.trueTuples.toList table
    else (.ok [], table)
  match learned.1 with
  | .error e => (.error (.store e), learned.2)
  | .ok derived =>
    let provisional := call.isProvisional i
    let stored := call.storeAnswer answer (if provisional then .unknown else .true) learned.2
    match stored.1 with
    | .error e => (.error (.store e), stored.2)
    | .ok outputs => (.ok { answer, outputs, submitted, derived, provisional }, stored.2)

end Invocation

def ExternalAtom.attempt (a : ExternalAtom) (settings : Settings) (q : Query)
    (table : SymbolTable) : Attempt :=
  match a.signature.checkInput table q.input with
  | .error e => ⟨.error e, 0, table⟩
  | .ok () =>
    let asked := a.ask q table
    match asked.1 with
    | .error e => ⟨.error e, 0, asked.2.table⟩
    | .ok given =>
      match a.signature.checkAnswer settings given with
      | .error e => ⟨.error e, 0, asked.2.table⟩
      | .ok (answer, dropped) =>
        let call : Invocation := ⟨a.signature, q.input⟩
        let concluded := call.conclude settings q.interpretation answer
          asked.2.pending.toList asked.2.table
        ⟨concluded.1, dropped, concluded.2⟩

end ExternalAtoms
