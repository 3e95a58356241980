import ExternalAtoms.Proofs.Evaluation.Growth

/-! # What a draft is made of

A successful attempt has passed every stage, so its draft tells what each of them gave: the answer
of the atom without dropped tuples, the nogoods that it submitted, and those that were derived. An
evaluation succeeds with the answer and the status of such a draft.
-/
namespace ExternalAtoms
open SymbolTable

namespace Signature
variable {s : Signature} {settings : Settings} {given answer : Answer} {dropped : Nat}

/-- An answer that passes the check counts as given, or an atom without partial answers has lost its
unknown tuples. -/
theorem checkAnswer_ok (h : s.checkAnswer settings given = .ok (answer, dropped)) :
    answer = given ∧ (given.unknownTuples.isEmpty = true ∨ s.properties.partialAnswers = true) ∨
      answer = given.dropUnknown ∧ s.properties.partialAnswers = false := by
  unfold checkAnswer at h
  dsimp only at h
  split at h
  · simp at h
  · split at h
    · next hkept => exact Or.inl ⟨(Prod.mk.inj (Except.ok.inj h)).1.symm, by simpa using hkept⟩
    · next hdropped =>
      split at h
      · simp at h
      · rw [Bool.or_eq_true, not_or, Bool.not_eq_true] at hdropped
        exact Or.inr ⟨(Prod.mk.inj (Except.ok.inj h)).1.symm, by simpa using hdropped.2⟩

theorem trueTuples_of_checkAnswer (h : s.checkAnswer settings given = .ok (answer, dropped)) :
    answer.trueTuples = given.trueTuples := by
  rcases checkAnswer_ok h with ⟨rfl, -⟩ | ⟨rfl, -⟩
  · rfl
  · rfl

theorem kept_of_checkAnswer (h : s.checkAnswer settings given = .ok (answer, dropped)) {t : Tuple}
    (ht : t ∈ answer.trueTuples ∨ t ∈ answer.unknownTuples) :
    t ∈ given.trueTuples ∨ t ∈ given.unknownTuples := by
  rcases checkAnswer_ok h with ⟨rfl, -⟩ | ⟨rfl, -⟩
  · exact ht
  · exact ht.imp_right fun hnone => absurd hnone Std.ExtTreeSet.not_mem_empty

theorem unknownTuples_of_checkAnswer (h : s.checkAnswer settings given = .ok (answer, dropped))
    (hp : s.properties.partialAnswers = false) : answer.unknownTuples = ∅ := by
  rcases checkAnswer_ok h with ⟨rfl, hnone⟩ | ⟨rfl, -⟩
  · rw [hp, or_iff_left (by decide)] at hnone
    exact Std.ExtTreeSet.isEmpty_iff.mp hnone
  · rfl

theorem eq_of_checkAnswer (h : s.checkAnswer settings given = .ok (answer, dropped))
    (hp : s.properties.partialAnswers = true) : answer = given := by
  rcases checkAnswer_ok h with ⟨rfl, -⟩ | ⟨-, hnone⟩
  · rfl
  · simp [hp] at hnone

end Signature

namespace Invocation
variable {call : Invocation} {settings : Settings} {i : Interpretation} {answer : Answer}
  {submitted : List Nogood} {table : SymbolTable} {draft : Draft}

theorem conclude_ok (h : (call.conclude settings i answer submitted table).1 = .ok draft) :
    draft.answer = answer ∧ draft.submitted = submitted ∧
      draft.provisional = call.isProvisional i ∧
      (call.learns settings = false ∧ draft.derived = [] ∨
        call.learns settings = true ∧
        (call.deriveNogoods i answer.trueTuples.toList table).1 = .ok draft.derived ∧
        Reaches (call.deriveNogoods i answer.trueTuples.toList table).2
          (call.conclude settings i answer submitted table).2) := by
  unfold conclude at h ⊢
  dsimp only at h ⊢
  split at h
  · simp at h
  · next derived hlearned =>
    split at h
    · simp at h
    · next outputs hstored =>
      obtain rfl := Except.ok.inj h
      refine ⟨rfl, rfl, rfl, ?_⟩
      by_cases hl : call.learns settings = true
      · rw [if_pos hl] at hlearned hstored ⊢
        exact Or.inr ⟨hl, hlearned, call.storeAnswer_reaches _ _ _⟩
      · rw [if_neg hl] at hlearned
        exact Or.inl ⟨by simpa using hl, (Except.ok.inj hlearned).symm⟩

end Invocation

namespace ExternalAtom
variable {a : ExternalAtom} {settings : Settings} {q : Query} {table : SymbolTable} {draft : Draft}

/-- A successful attempt has passed the checks, got an answer and reached its conclusion. -/
theorem attempt_ok (h : (a.attempt settings q table).result = .ok draft) :
    ∃ given dropped, a.signature.checkInput table q.input = .ok () ∧
      (a.ask q table).1 = .ok given ∧
      a.signature.checkAnswer settings given = .ok (draft.answer, dropped) ∧
      Invocation.conclude ⟨a.signature, q.input⟩ settings q.interpretation draft.answer
        (a.ask q table).2.pending.toList (a.ask q table).2.table =
          (.ok draft, (a.attempt settings q table).table) := by
  unfold attempt at h ⊢
  split at h
  · simp at h
  · next hinput =>
    dsimp only at h ⊢
    split at h
    · simp at h
    · next given hgiven =>
      split at h
      · simp at h
      · next answer dropped hanswer =>
        obtain ⟨rfl, -⟩ := Invocation.conclude_ok h
        exact ⟨given, dropped, hinput, hgiven, hanswer, Prod.ext h rfl⟩

end ExternalAtom

/-- An answer is provisional when an atom without partial answers got a partial interpretation. -/
theorem ExternalAtom.provisional_of_attempt {a : ExternalAtom} {settings : Settings} {q : Query}
    {table : SymbolTable} {draft : Draft} (h : (a.attempt settings q table).result = .ok draft) :
    draft.provisional =
      (q.interpretation.isPartial && !a.signature.properties.partialAnswers) := by
  obtain ⟨given, dropped, -, -, -, hconclude⟩ := attempt_ok h
  exact (Invocation.conclude_ok (congrArg Prod.fst hconclude)).2.2.1

theorem ExternalAtom.provisional_of_complete {a : ExternalAtom} {settings : Settings} {q : Query}
    {table : SymbolTable} {draft : Draft} (h : (a.attempt settings q table).result = .ok draft)
    (hcomplete : q.interpretation.isPartial = false) : draft.provisional = false := by
  rw [provisional_of_attempt h, hcomplete, Bool.false_and]

theorem ExternalAtom.submitted_of_attempt {a : ExternalAtom} {settings : Settings} {q : Query}
    {table : SymbolTable} {draft : Draft} (h : (a.attempt settings q table).result = .ok draft) :
    draft.submitted = (a.ask q table).2.pending.toList := by
  obtain ⟨given, dropped, -, -, -, hconclude⟩ := attempt_ok h
  exact (Invocation.conclude_ok (congrArg Prod.fst hconclude)).2.1

theorem Evaluator.evaluate_ok {ev : Evaluator} {predicate : String} {input : List Symbol}
    {i : Interpretation} {table : SymbolTable} {e : Evaluation}
    (h : (ev.evaluate predicate input i table).result = .ok e) :
    ∃ atom draft, ev.registry.find? predicate = some atom ∧
      (atom.attempt ev.settings ⟨input, i⟩ table).result = .ok draft ∧
      e.answer = draft.answer ∧ e.provisional = draft.provisional := by
  unfold evaluate attempt at h
  cases hf : ev.registry.find? predicate with
  | none => simp [hf] at h
  | some atom =>
    simp only [hf] at h
    split at h
    · simp at h
    · next draft hdraft =>
      obtain rfl := Except.ok.inj h
      exact ⟨atom, draft, rfl, hdraft, rfl, rfl⟩

theorem Evaluator.exists_draft {ev : Evaluator} {predicate : String} {a : ExternalAtom}
    (hatom : ev.registry.find? predicate = some a) {input : List Symbol} {i : Interpretation}
    {table : SymbolTable} {e : Evaluation}
    (h : (ev.evaluate predicate input i table).result = .ok e) :
    ∃ draft, (a.attempt ev.settings ⟨input, i⟩ table).result = .ok draft ∧
      e.answer = draft.answer ∧ e.provisional = draft.provisional := by
  obtain ⟨atom, draft, hfound, hdraft⟩ := evaluate_ok h
  obtain rfl := Option.some.inj (hatom.symm.trans hfound)
  exact ⟨draft, hdraft⟩

end ExternalAtoms
