import ExternalAtoms.Evaluation.Evaluator
import ExternalAtoms.Proofs.Retrieval.Run

/-! # What an evaluation does to the symbol table

An evaluation touches the table only through requests, however far it comes: the scan for a premise
asks for heads, the conclusion stores output atoms, and retrieval is a program of requests. So the
table afterwards is always reached from the table before.
-/
namespace ExternalAtoms
open SymbolTable

theorem Properties.premiseAt_reaches (p : Properties) (index : Nat) (predicate : Symbol)
    (entries : List (Symbol × Truth)) (table : SymbolTable) :
    Reaches table (p.premiseAt index predicate entries table).2 := by
  induction entries generalizing table with
  | nil => exact .refl
  | cons entry rest ih =>
    have hasked := run_reaches (.head entry.1) table
    have hrest := hasked.trans (ih _)
    simp only [premiseAt]
    split
    · split
      · exact hasked
      · exact hrest
      · exact hrest
    · exact hrest

theorem Signature.premiseFrom_reaches (s : Signature) (i : Interpretation) (index : Nat)
    (input : List Symbol) (table : SymbolTable) :
    Reaches table (s.premiseFrom i index input table).2 := by
  induction input generalizing index table with
  | nil => exact .refl
  | cons arg rest ih =>
    have hhere := s.properties.premiseAt_reaches index arg i.atoms.toList table
    simp only [premiseFrom]
    split
    · split
      · exact hhere
      · exact hhere.trans (ih _ _)
    · exact ih _ _

namespace Invocation
variable (call : Invocation)

theorem premise_reaches (i : Interpretation) (table : SymbolTable) :
    Reaches table (call.premise i table).2 :=
  call.signature.premiseFrom_reaches i 0 call.input table

theorem deriveNogoods_reaches (i : Interpretation) (tuples : List Tuple) (table : SymbolTable) :
    Reaches table (call.deriveNogoods i tuples table).2 := by
  have hpremise := call.premise_reaches i table
  simp only [deriveNogoods]
  split
  · exact hpremise
  · exact hpremise.trans (call.storeOutputAtoms_reaches _ tuples)

theorem storeAnswer_reaches (answer : Answer) (reported : Truth) (table : SymbolTable) :
    Reaches table (call.storeAnswer answer reported table).2 := by
  have hsettled := call.storeOutputAtoms_reaches table answer.trueTuples.toList
  simp only [storeAnswer]
  split
  · exact hsettled
  · exact hsettled.trans (call.storeOutputAtoms_reaches _ _)

theorem conclude_reaches (settings : Settings) (i : Interpretation) (answer : Answer)
    (submitted : List Nogood) (table : SymbolTable) :
    Reaches table (call.conclude settings i answer submitted table).2 := by
  have hlearned : Reaches table (if call.learns settings then
      call.deriveNogoods i answer.trueTuples.toList table else (.ok [], table)).2 := by
    split
    · exact call.deriveNogoods_reaches i _ table
    · exact .refl
  have hstored := fun reported => hlearned.trans (call.storeAnswer_reaches answer reported _)
  simp only [conclude]
  split
  · exact hlearned
  · split <;> exact hstored _

end Invocation

theorem ExternalAtom.attempt_reaches (a : ExternalAtom) (settings : Settings) (q : Query)
    (table : SymbolTable) : Reaches table (a.attempt settings q table).table := by
  have hasked := a.ask_reaches q table
  unfold attempt
  split
  · exact .refl
  · dsimp only
    split
    · exact hasked
    · split
      · exact hasked
      · exact hasked.trans (Invocation.conclude_reaches _ _ _ _ _ _)

/-- An attempt that asks the atom leaves a table that comes from the one after the retrieval. -/
theorem ExternalAtom.attempt_reaches_of_input (a : ExternalAtom) (settings : Settings) {q : Query}
    {table : SymbolTable} (h : a.signature.checkInput table q.input = .ok ()) :
    Reaches (a.ask q table).2.table (a.attempt settings q table).table := by
  simp only [attempt, h]
  split
  · exact .refl
  · split
    · exact .refl
    · exact Invocation.conclude_reaches _ _ _ _ _ _

namespace Evaluator
variable (ev : Evaluator) (predicate : String) (input : List Symbol) (i : Interpretation)
  (table : SymbolTable)

theorem attempt_reaches (q : Query) : Reaches table (ev.attempt predicate q table).table := by
  unfold attempt
  split
  · exact .refl
  · exact ExternalAtom.attempt_reaches _ _ _ _

theorem evaluate_table : (ev.evaluate predicate input i table).table =
    (ev.attempt predicate ⟨input, i⟩ table).table := by
  simp only [evaluate]
  split <;> rfl

theorem evaluate_reaches : Reaches table (ev.evaluate predicate input i table).table := by
  rw [evaluate_table]
  exact ev.attempt_reaches predicate table _

end Evaluator

end ExternalAtoms
