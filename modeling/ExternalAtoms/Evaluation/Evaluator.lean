import ExternalAtoms.Evaluation.Attempt
import ExternalAtoms.Evaluation.Counters
import ExternalAtoms.Nogood.Log
import ExternalAtoms.Registry

/-! # Evaluating external atoms

An evaluator owns the registry, the nogood log and the counters of a solving session and works on a
symbol table that it shares with others. A successful attempt is committed to the log and to the
counters. A failed one is counted, together with the tuples dropped on the way, and leaves nothing
else behind but symbols.
-/
namespace ExternalAtoms

structure Evaluation where
  answer : Answer
  /-- An atom with its truth value for every reported tuple. -/
  outputs : List (Symbol × Truth)
  /-- The nogoods that the evaluation added to the log. -/
  learned : List Nogood
  /-- Whether an atom without partial answers was asked under a partial interpretation. -/
  provisional : Bool

/-- While the answer is provisional every tuple is unknown, reported or not. -/
def Evaluation.truthOf (e : Evaluation) (tuple : Tuple) : Truth :=
  if e.provisional || e.answer.isUnknown tuple then .unknown
  else .ofBool (e.answer.isTrue tuple)

structure Evaluator where
  registry : Registry := .empty
  log : NogoodLog := .empty
  settings : Settings := {}
  counters : Counters := {}

namespace Evaluator

def register (ev : Evaluator) (p : Plugin) : Except SignatureError Nat × Evaluator :=
  let registered := ev.registry.register p
  (registered.1, { ev with registry := registered.2 })

def attempt (ev : Evaluator) (predicate : String) (q : Query) (table : SymbolTable) : Attempt :=
  match ev.registry.find? predicate with
  | none => ⟨.error (.unknownAtom predicate), 0, table⟩
  | some atom => atom.attempt ev.settings q table

def learn (ev : Evaluator) (derived : Bool) (n : Nogood) : Bool × Evaluator :=
  let inserted := ev.log.insert n
  (inserted.1,
    { ev with
      log := inserted.2
      counters := ev.counters.recordNogood derived inserted.1 })

def learnAll (ev : Evaluator) (derived : Bool) : List Nogood → List Nogood × Evaluator
  | [] => ([], ev)
  | n :: rest =>
    let first := ev.learn derived n
    let others := first.2.learnAll derived rest
    (if first.1 then n :: others.1 else others.1, others.2)

def commit (ev : Evaluator) (draft : Draft) : Evaluation × Evaluator :=
  let submitted := ev.learnAll false draft.submitted
  let derived := submitted.2.learnAll true draft.derived
  let counters := derived.2.counters.recordEvaluation draft.answer.trueTuples.size
    draft.answer.unknownTuples.size
  ({ answer := draft.answer
     outputs := draft.outputs
     learned := submitted.1 ++ derived.1
     provisional := draft.provisional },
    { derived.2 with counters })

structure Outcome where
  result : Except EvaluationError Evaluation
  evaluator : Evaluator
  table : SymbolTable

def evaluate (ev : Evaluator) (predicate : String) (input : List Symbol)
    (interpretation : Interpretation) (table : SymbolTable) : Outcome :=
  let attempt := ev.attempt predicate ⟨input, interpretation⟩ table
  let counted := { ev with counters := ev.counters.recordDropped attempt.dropped }
  match attempt.result with
  | .error e =>
    ⟨.error e, { counted with counters := counted.counters.recordFailure }, attempt.table⟩
  | .ok draft =>
    let committed := counted.commit draft
    ⟨.ok committed.1, committed.2, attempt.table⟩

end Evaluator

end ExternalAtoms
