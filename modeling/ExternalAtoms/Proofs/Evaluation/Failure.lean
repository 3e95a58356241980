import ExternalAtoms.Proofs.Evaluation.Growth
import ExternalAtoms.Proofs.Symbol.Denotation

/-! # Failed evaluations

Nogoods and output tuples of an evaluation stay in its draft until the last fallible step is done.
So an evaluation that fails, wherever it does, is counted and leaves symbols behind, and the
evaluator is otherwise the one that it was.
-/
namespace ExternalAtoms.Evaluator
open SymbolTable

theorem evaluate_evaluator_of_error {ev : Evaluator} {predicate : String} {input : List Symbol}
    {i : Interpretation} {table : SymbolTable} {e : EvaluationError}
    (h : (ev.evaluate predicate input i table).result = .error e) :
    (ev.evaluate predicate input i table).evaluator =
      { ev with
        counters := (ev.counters.recordDropped
          (ev.attempt predicate ⟨input, i⟩ table).dropped).recordFailure } := by
  simp only [evaluate] at h ⊢
  split
  · rfl
  · next draft hdraft => simp [hdraft] at h

/-- A call that fails counts itself and the tuples that it dropped, and leaves a table in which
every handle and every name is what it was. -/
theorem failed_evaluation_atomic (ev : Evaluator) (predicate : String) (input : List Symbol)
    (i : Interpretation) (table : SymbolTable) (e : EvaluationError)
    (h : (ev.evaluate predicate input i table).result = .error e) :
    let after := ev.evaluate predicate input i table
    after.evaluator.log = ev.log ∧ after.evaluator.registry = ev.registry ∧
      after.evaluator.settings = ev.settings ∧
      (∃ dropped : Nat, after.evaluator.counters =
        { ev.counters with
          failures := ev.counters.failures + 1
          droppedTuples := ev.counters.droppedTuples + UInt64.ofNat dropped }) ∧
      Extends table after.table ∧
      (∀ s t, table.resolve? s = some t → after.table.resolve? s = some t) ∧
      (∀ id text, table.names.resolve? id = some text →
        after.table.names.resolve? id = some text) ∧
      (Reaches .empty table → table.size ≤ 2 ^ 31 →
        ∀ s a, table.tree s = .ok a → after.table.tree s = .ok a) := by
  have hgrown := (ev.evaluate_reaches predicate input i table).toExtends
  intro after
  rw [show after.evaluator = _ from evaluate_evaluator_of_error h]
  refine ⟨rfl, rfl, rfl, ⟨_, rfl⟩, hgrown, fun s t => hgrown.resolve, fun id text => hgrown.name,
    ?_⟩
  intro hr hb s a
  exact (hr.wellFormed hb).tree_extends hgrown

/-- Its only atom submits a nogood and then reports a tuple with a handle of another table. -/
def careless : Evaluator where
  registry := Registry.empty.insert "careless" ⟨⟨"f", [], 1, {}⟩, fun _ => do
    let p ← .constant "p"
    .learn (.ofList [p])
    return .ofTuples [[⟨40⟩]]⟩

theorem failed_evaluation_atomic_careless :
    (careless.evaluate "f" [] .empty .empty).result = .error (.store (.unknownSymbol 20)) ∧
      (careless.evaluate "f" [] .empty .empty).evaluator.log = careless.log := by
  have h : (careless.evaluate "f" [] .empty .empty).result = .error (.store (.unknownSymbol 20)) :=
    rfl
  exact ⟨h, (failed_evaluation_atomic careless "f" [] .empty .empty _ h).1⟩

end ExternalAtoms.Evaluator
