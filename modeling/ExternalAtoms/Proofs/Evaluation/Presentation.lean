import ExternalAtoms.Proofs.Answer
import ExternalAtoms.Proofs.Evaluation.Admission

/-! # What decides a call once its input is taken

A call whose input is accepted fails when the atom does, or when the answer cannot be presented: its
tuples must have the output length and usable symbols, and undecided ones need partial answers.
-/
namespace ExternalAtoms
open SymbolTable

/-- The answer passes the check of the signature, and its tuples can be stored. -/
structure Answer.Presentable (given : Answer) (signature : Signature) (table : SymbolTable) :
    Prop where
  length : ∀ t, t ∈ given.trueTuples ∨ t ∈ given.unknownTuples → t.length = signature.outputArity
  usable : ∀ t, t ∈ given.trueTuples ∨ t ∈ given.unknownTuples → ∀ s ∈ t, table.Usable s
  settled : given.unknownTuples = ∅ ∨ signature.properties.partialAnswers = true

namespace Answer
variable {signature : Signature} {table : SymbolTable}

theorem presentable_ofTuples {tuples : List Tuple}
    (hlength : ∀ t ∈ tuples, t.length = signature.outputArity)
    (husable : ∀ t ∈ tuples, ∀ s ∈ t, table.Usable s) :
    (Answer.ofTuples tuples).Presentable signature table := by
  have honly : ∀ t, t ∈ (Answer.ofTuples tuples).trueTuples ∨
      t ∈ (Answer.ofTuples tuples).unknownTuples → t ∈ tuples := by
    simp [mem_ofTuples, unknownTuples_ofTuples]
  exact ⟨fun t ht => hlength t (honly t ht), fun t ht => husable t (honly t ht),
    Or.inl (unknownTuples_ofTuples _)⟩

theorem presentable_single {s : Symbol} (harity : signature.outputArity = 1)
    (hs : table.Usable s) : (Answer.ofTuples [[s]]).Presentable signature table :=
  presentable_ofTuples (by simp [harity]) (by simpa using hs)

end Answer

theorem Signature.checkAnswer_of_length {s : Signature} {settings : Settings} {given : Answer}
    (h : ∃ t, (t ∈ given.trueTuples ∨ t ∈ given.unknownTuples) ∧ t.length ≠ s.outputArity) :
    ∃ t, (t ∈ given.trueTuples ∨ t ∈ given.unknownTuples) ∧ t.length ≠ s.outputArity ∧
      s.checkAnswer settings given = .error (.outputArity s.predicate s.outputArity t.length) := by
  simp only [← Std.ExtTreeSet.mem_toList, ← List.mem_append] at h ⊢
  obtain ⟨t, ht, hlength⟩ := h
  have hfound : ((given.trueTuples.toList ++ given.unknownTuples.toList).find?
      fun tuple => tuple.length != s.outputArity).isSome := by
    rw [List.find?_isSome]
    exact ⟨t, ht, bne_iff_ne.mpr hlength⟩
  obtain ⟨t', ht'⟩ := Option.isSome_iff_exists.mp hfound
  have hbad := List.find?_some (p := fun tuple : Tuple => tuple.length != s.outputArity) ht'
  refine ⟨t', List.mem_of_find?_eq_some ht', bne_iff_ne.mp hbad, ?_⟩
  simp only [checkAnswer, ht']

/-- A call of an atom with an input that it accepts, in a table that stays small enough. -/
structure Evaluator.Asks (ev : Evaluator) (a : ExternalAtom) (input : List Symbol)
    (i : Interpretation) (table : SymbolTable) : Prop where
  find : ev.registry.find? a.predicate = some a
  accepts : a.signature.checkInput table input = .ok ()
  built : i.BuiltOn table
  bounded : (ev.evaluate a.predicate input i table).table.size ≤ 2 ^ 31

namespace Evaluator.Asks
variable {ev : Evaluator} {a : ExternalAtom} {input : List Symbol} {i : Interpretation}
  {table : SymbolTable} (h : ev.Asks a input i table)
include h

theorem asked_bounded : (a.ask ⟨input, i⟩ table).2.table.size ≤ 2 ^ 31 := by
  have hb := h.bounded
  rw [evaluate_table, attempt, h.find] at hb
  exact Nat.le_trans (a.attempt_reaches_of_input ev.settings h.accepts).size_le hb

theorem asked_wellFormed : WellFormed (a.ask ⟨input, i⟩ table).2.table :=
  (h.built.reached.trans (a.ask_reaches _ table)).wellFormed h.asked_bounded

theorem wellFormed : WellFormed table :=
  h.built.reached.wellFormed (Nat.le_trans (a.ask_reaches ⟨input, i⟩ table).size_le h.asked_bounded)

/-- Where there is no trailing tuple, every declared input has its argument. -/
theorem exists_argument (htuple : a.signature.hasTupleInput = false) {k : Nat}
    (hk : k < a.signature.inputs.length) :
    ∃ s, (Query.mk input i).arg? k = some s ∧ table.Usable s := by
  have hlength := (Signature.checkInput_ok_iff.mp h.accepts).1
  rw [Signature.acceptsLength, htuple, if_neg Bool.false_ne_true, beq_iff_eq] at hlength
  have hinside : k < input.length := by omega
  exact ⟨input[k], List.getElem?_eq_getElem hinside,
    Signature.usable_of_checkInput h.accepts _ (List.getElem_mem hinside)⟩

theorem result_of_error {f : EvaluationError} (hask : (a.ask ⟨input, i⟩ table).1 = .error f) :
    (ev.evaluate a.predicate input i table).result = .error f := by
  rw [evaluate_of_ask_error h.find h.accepts hask]

theorem succeeds_of_presentable {given : Answer} (hask : (a.ask ⟨input, i⟩ table).1 = .ok given)
    (hgiven : given.Presentable a.signature (a.ask ⟨input, i⟩ table).2.table) :
    ∃ e, (ev.evaluate a.predicate input i table).result = .ok e := by
  obtain ⟨⟨answer, dropped⟩, hchecked⟩ :=
    (@Signature.checkAnswer_succeeds_iff a.signature ev.settings given).mpr
      ⟨hgiven.length, hgiven.settled.imp_right Or.inl⟩
  exact (evaluate_succeeds_iff h.find).mpr (ExternalAtom.attempt_succeeds h.accepts hask hchecked
    fun t ht => hgiven.usable t (Signature.kept_of_checkAnswer hchecked ht))

theorem result_of_length {given : Answer} (hask : (a.ask ⟨input, i⟩ table).1 = .ok given)
    (hnone : given.unknownTuples = ∅)
    (hlength : ∃ t ∈ given.trueTuples, t.length ≠ a.signature.outputArity) :
    ∃ t ∈ given.trueTuples, t.length ≠ a.signature.outputArity ∧
      (ev.evaluate a.predicate input i table).result =
        .error (.outputArity a.predicate a.signature.outputArity t.length) := by
  have honly : ∀ t, t ∈ given.trueTuples ∨ t ∈ given.unknownTuples → t ∈ given.trueTuples := by
    rintro t (ht | ht)
    · exact ht
    · rw [hnone] at ht
      exact absurd ht Std.ExtTreeSet.not_mem_empty
  obtain ⟨t, ht, hbad⟩ := hlength
  obtain ⟨t', ht', hbad', hchecked⟩ :=
    @Signature.checkAnswer_of_length a.signature ev.settings given ⟨t, Or.inl ht, hbad⟩
  refine ⟨t', honly t' ht', hbad', ?_⟩
  have hattempt : ev.attempt a.predicate ⟨input, i⟩ table = ⟨.error (.outputArity a.predicate
      a.signature.outputArity t'.length), 0, (a.ask ⟨input, i⟩ table).2.table⟩ := by
    simp only [attempt, h.find, ExternalAtom.attempt, h.accepts, hask, hchecked]
    rfl
  rw [evaluate_of_attempt hattempt]

end Evaluator.Asks

end ExternalAtoms
