import ExternalAtoms.Proofs.Bundled.Agreement
import ExternalAtoms.Proofs.Evaluation.Replay

/-! # Asking the bundled atoms again

All bundled atoms can be asked again. What they read from the table does not change while it grows,
what they count and gather are atoms whose heads are stored, and everything else that they do is to
store symbols and to submit nogoods over them. So a query that has succeeded once can be repeated
at any later time of the session, and changes nothing.
-/
namespace ExternalAtoms
open SymbolTable Sample Evaluator

namespace Bundled
open Retrieval
variable {i : Interpretation} {q : Query}

section Read

theorem repeats_argument (index : Nat) (predicate message : String) :
    (argument q index predicate message).Repeats i :=
  .of_read (fun _ s => q.arg? index = some s) argument_ok fun _ _ h => h

theorem repeats_integerArgument (index : Nat) (predicate : String) :
    (integerArgument q index predicate).Repeats i :=
  .of_read (fun table value => (q.arg? index).bind table.integer? = some value)
    integerArgument_ok fun _ hg h => argument_integer_extends hg.toExtends h

theorem repeats_readOperand (s : Symbol) : (readOperand s).Repeats i :=
  .of_read (fun table o => operand table s = .ok o) readOperand_ok
    fun hi hg h => operand_extends hi.reached.admits hg.toExtends h

theorem repeats_readOperands (input : List Symbol) : (readOperands input).Repeats i :=
  .of_read (fun table operands => input.mapM (operand table) = .ok operands) readOperands_ok
    fun hi hg h => operands_extends hi.reached.admits hg.toExtends h

theorem repeats_storeText (text : String) (quoted : Bool) : (storeText text quoted).Repeats i := by
  cases quoted with
  | «true» => exact repeats_string text
  | «false» => exact repeats_constant text

theorem repeats_countInputs (p : Symbol) : (countInputs q p).Repeats q.interpretation := by
  intro call w tally w' hi h later hg
  obtain ⟨rfl, rfl⟩ := (countInputs_run_ok hi.snapshot).mp h
  have hlater : q.interpretation.Snapshot later := hi.snapshot.extend hg
  refine (countInputs_run_ok (w := ⟨later, w.pending⟩) hlater).mpr ⟨?_, rfl⟩
  exact tallyOf_congr .refl hg hlater hi.snapshot fun _ _ => rfl

theorem repeats_setMinusTrueAtoms : (setMinusTrueAtoms q).Repeats q.interpretation := by
  intro call w answer w' hi h later hg
  obtain ⟨p, s, hp, hs⟩ : ∃ p s, q.arg? 0 = some p ∧ q.arg? 1 = some s := by
    simp only [setMinusTrueAtoms, run_bind_ok, inputArgument_ok] at h
    obtain ⟨p, _, ⟨hp, -⟩, s, _, ⟨hs, -⟩, -⟩ := h
    exact ⟨p, s, hp, hs⟩
  rw [setMinusTrueAtoms_run hp hs call hi.snapshot] at h
  obtain ⟨ha, rfl⟩ := Prod.mk.inj h
  have hlater : q.interpretation.Snapshot later := hi.snapshot.extend hg
  rw [setMinusTrueAtoms_run (w := ⟨later, w.pending⟩) hp hs call hlater, ha]

theorem repeats_learnOutput (p s : Symbol) (t : Tuple) : (learnOutput p s t).Repeats i :=
  (repeats_atom _).bind fun _ => (repeats_atom _).bind fun _ => (repeats_negate _).bind fun _ =>
    (repeats_outputAtom _).bind fun _ => (repeats_negate _).bind fun _ => repeats_learn _

end Read

/-- Every bundled atom can be asked again. -/
theorem repeats_of_mem {a : ExternalAtom} (ha : a ∈ bundledAtoms) :
    (a.retrieve q).Repeats q.interpretation := by
  simp only [bundledAtoms, stringPlugin, testPlugin, List.mem_append, List.mem_cons,
    List.not_mem_nil, or_false] at ha
  rcases ha with (rfl | rfl | rfl) | rfl | rfl | rfl | rfl | rfl | rfl | rfl | rfl | rfl
  · exact (repeats_readOperands _).bind fun _ => (repeats_string _).bind fun _ => .pure _
  · exact (repeats_argument _ _ _).bind fun _ => (repeats_readOperand _).bind fun _ =>
      (repeats_integer _).bind fun _ => .pure _
  · exact (repeats_argument _ _ _).bind fun _ => (repeats_readOperand _).bind fun _ =>
      (repeats_integerArgument _ _).bind fun _ => (repeats_integerArgument _ _).bind fun _ =>
      (repeats_storeText _ _).bind fun _ => .pure _
  · exact (repeats_readOperands _).bind fun _ => (repeats_storeText _ _).bind fun _ => .pure _
  · exact (repeats_argument _ _ _).bind fun _ => (repeats_argument _ _ _).bind fun _ => .pure _
  · exact repeats_setMinusTrueAtoms
  · exact (repeats_argument _ _ _).bind fun _ => (repeats_argument _ _ _).bind fun _ =>
      Repeats.bind (.forM (repeats_learnOutput _ _) _) fun _ => .pure _
  · refine (repeats_argument _ _ _).bind fun _ => ?_
    dsimp only
    split
    · exact .pure _
    · exact .fail _
  · exact (repeats_argument _ _ _).bind fun _ => .pure _
  · exact (repeats_integerArgument _ _).bind fun _ => (repeats_integerArgument _ _).bind fun _ =>
      .pure _
  · exact (repeats_argument _ _ _).bind fun _ => (repeats_countInputs _).bind fun _ => .pure _
  · exact (repeats_argument _ _ _).bind fun _ => (repeats_integerArgument _ _).bind fun _ =>
      (repeats_integerArgument _ _).bind fun _ => (repeats_countInputs _).bind fun _ => .pure _

/-- A successful evaluation of a bundled atom can be repeated at any later time of the session. It
presents the same answer, the same output atoms and the same status, nothing is learned, and the
table and the evaluator stay as they are, but for its counters. -/
theorem repeated_evaluation_changes_nothing {calls : List Evaluator.Call} {ev : Evaluator}
    {table : SymbolTable} (h : Evaluator.Session calls ev table) {c : Evaluator.Call}
    (hc : c ∈ calls) {a : ExternalAtom} (ha : a ∈ bundledAtoms)
    (hatom : c.evaluator.registry.find? c.predicate = some a)
    (hi : c.query.interpretation.BuiltOn c.table) {e : Evaluation}
    (he : c.outcome.result = .ok e) :
    let again : Evaluator.Call := ⟨ev, c.predicate, c.query, table⟩
    (∃ e', again.outcome.result = .ok e' ∧ e'.answer = e.answer ∧ e'.outputs = e.outputs ∧
        e'.provisional = e.provisional ∧ e'.learned = []) ∧
      again.outcome.table = table ∧ again.outcome.evaluator.log = ev.log ∧
      again.outcome.evaluator.registry = ev.registry ∧
      again.outcome.evaluator.settings = ev.settings := by
  intro again
  obtain ⟨counters, hagain⟩ := h.replay hc hatom hi (repeats_of_mem ha) he
  rw [show again.outcome = _ from hagain]
  exact ⟨⟨_, rfl, rfl, rfl, rfl, rfl⟩, rfl, rfl, rfl, rfl⟩

/-- The first call has learned a nogood. After another call it is repeated and learns none. -/
theorem repeated_evaluation_changes_nothing_twoCalls :
    ∃ e e', firstCall.outcome.result = .ok e ∧ e.learned = [.ofList [⟨8⟩, ⟨11⟩, ⟨15⟩]] ∧
      (Evaluator.Call.outcome ⟨secondCall.outcome.evaluator, "testSetMinus",
        ⟨[⟨0⟩, ⟨2⟩], leftWhen .false⟩, secondCall.outcome.table⟩).result = .ok e' ∧
      e'.outputs = e.outputs ∧ e'.learned = [] := by
  obtain ⟨e, he, hlearned⟩ : ∃ e, firstCall.outcome.result = .ok e ∧
      e.learned = [.ofList [⟨8⟩, ⟨11⟩, ⟨15⟩]] := ⟨_, rfl, by decide⟩
  obtain ⟨a, ha, hatom⟩ : ∃ a ∈ bundledAtoms,
      firstCall.evaluator.registry.find? firstCall.predicate = some a :=
    ⟨⟨⟨"testSetMinus", [.predicate, .predicate], 1,
      { monotonic := [0], antimonotonic := [1] }⟩, setMinus⟩,
      by simp [bundledAtoms, stringPlugin, testPlugin], rfl⟩
  obtain ⟨⟨e', he', -, houtputs, -, hnone⟩, -⟩ := repeated_evaluation_changes_nothing twoCalls
    (List.mem_cons_of_mem _ List.mem_cons_self) ha hatom (leftWhen_builtOn .false) he
  exact ⟨e, e', he, hlearned, he', houtputs, hnone⟩

end Bundled

end ExternalAtoms
