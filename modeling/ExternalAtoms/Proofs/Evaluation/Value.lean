import ExternalAtoms.Proofs.Evaluation.Relation
import ExternalAtoms.Proofs.Interpretation.Refinement

/-! # The values of tuples

The value of a tuple after an evaluation depends on what the atom answered and, if it gives no
partial answers, on whether the interpretation was complete. An atom keeps its values when no tuple
that is true or false gets another value as the interpretation is refined. Every atom that reports a
relation and gives no partial answers does so: as long as its values are not all unknown, there is
nothing to refine.
-/
namespace ExternalAtoms
open SymbolTable

namespace Evaluation
variable {e : Evaluation} {t : Tuple}

theorem truthOf_of_true (h : t ∈ e.answer.trueTuples) :
    e.truthOf t = if e.provisional then .unknown else .true := by
  have hknown : e.answer.isUnknown t = false := decide_eq_false (e.answer.disjoint t h)
  simp [truthOf, hknown, Answer.isTrue, h, Truth.ofBool]

theorem truthOf_of_unknown (h : t ∈ e.answer.unknownTuples) : e.truthOf t = .unknown := by
  simp [truthOf, Answer.isUnknown, h]

end Evaluation

namespace ExternalAtom
variable {a : ExternalAtom} {i j : Interpretation} {answer answer' : Answer} {t : Tuple}

/-- The value that a tuple has when the atom gives this answer under this interpretation. -/
def valueOf (a : ExternalAtom) (i : Interpretation) (answer : Answer) (t : Tuple) : Truth :=
  if a.signature.properties.partialAnswers then
    if answer.isUnknown t then .unknown else .ofBool (answer.isTrue t)
  else if i.isPartial then .unknown else .ofBool (answer.isTrue t)

theorem valueOf_of_partialAnswers (h : a.signature.properties.partialAnswers = true) :
    a.valueOf i answer t =
      if answer.isUnknown t then .unknown else .ofBool (answer.isTrue t) := by
  rw [valueOf, if_pos h]

theorem valueOf_of_total (h : a.signature.properties.partialAnswers = false) :
    a.valueOf i answer t = if i.isPartial then .unknown else .ofBool (answer.isTrue t) := by
  rw [valueOf, if_neg (by simp [h])]

/-- As the interpretation is refined, no decided value changes. -/
def Keeps (a : ExternalAtom) (final : SymbolTable) : Prop :=
  ∀ {input : List Symbol} {i j : Interpretation} {table later : SymbolTable}
    {answer answer' : Answer}, a.Answers final ⟨input, i⟩ table answer →
    a.Answers final ⟨input, j⟩ later answer' → i.RefinedBy j →
    ∀ t, a.valueOf i answer t ≠ .unknown → a.valueOf j answer' t = a.valueOf i answer t

theorem Reports.keeps {final : SymbolTable} {R : List Symbol → (Nat → TupleSet) → Set Tuple}
    (h : a.Reports final R) (hp : a.signature.properties.partialAnswers = false) :
    a.Keeps final := by
  intro input i j table later answer answer' hi hj hij t ht
  rw [valueOf_of_total hp] at ht
  have hcomplete : i.isPartial = false := by
    by_contra hpartial
    exact ht (if_pos (by simpa using hpartial))
  have hvalues := hi.built.snapshot.isPartial_eq_false_iff.mp hcomplete
  have hsame := hij.same_of_complete hvalues
  have hcomplete' : j.isPartial = false :=
    hj.built.snapshot.isPartial_eq_false_iff.mpr fun b => hsame b ▸ hvalues b
  -- Both answers are read off the same extensions, so they report the same tuples.
  have hread : (Query.mk input i).extension = (Query.mk input j).extension :=
    hi.builtOn.snapshot.extension_eq hj.builtOn.snapshot hsame
  have hextensions : a.signature.extensionAt ⟨input, i⟩ = a.signature.extensionAt ⟨input, j⟩ := by
    funext index
    rw [Signature.extensionAt, Signature.extensionAt, hread]
    rfl
  have hmem : t ∈ answer.trueTuples ↔ t ∈ answer'.trueTuples := by
    rw [h _ _ _ hi, h _ _ _ hj, hextensions]
  rw [valueOf_of_total hp, valueOf_of_total hp, hcomplete, hcomplete', Answer.isTrue,
    Answer.isTrue, decide_eq_decide.mpr hmem]

end ExternalAtom

theorem Evaluator.evaluate_truthOf {ev : Evaluator} {predicate : String} {a : ExternalAtom}
    (hatom : ev.registry.find? predicate = some a) {input : List Symbol} {i : Interpretation}
    {table final : SymbolTable} (hi : i.BuiltOn table) {e : Evaluation}
    (he : (ev.evaluate predicate input i table).result = .ok e)
    (hfinal : Reaches (ev.evaluate predicate input i table).table final) :
    ∃ given, a.Answers final ⟨input, i⟩ table given ∧ ∀ t, e.truthOf t = a.valueOf i given t := by
  obtain ⟨draft, hdraft, hanswer, hprovisional⟩ := exists_draft hatom he
  rw [evaluate_table, attempt, hatom] at hfinal
  obtain ⟨given, dropped, hgiven, hchecked⟩ := ExternalAtom.attempt_answers hi hdraft hfinal
  refine ⟨given, hgiven, fun t => ?_⟩
  rw [Evaluation.truthOf, hanswer, hprovisional, ExternalAtom.provisional_of_attempt hdraft]
  cases hp : a.signature.properties.partialAnswers with
  | true =>
    rw [ExternalAtom.valueOf_of_partialAnswers hp, Signature.eq_of_checkAnswer hchecked hp]
    simp
  | false =>
    have hnone : draft.answer.isUnknown t = false := by
      simp [Answer.isUnknown, Signature.unknownTuples_of_checkAnswer hchecked hp]
    rw [ExternalAtom.valueOf_of_total hp, hnone, Answer.isTrue,
      Signature.trueTuples_of_checkAnswer hchecked]
    simp [Answer.isTrue]

end ExternalAtoms
