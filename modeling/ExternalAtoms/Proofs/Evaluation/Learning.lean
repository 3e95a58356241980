import ExternalAtoms.Proofs.Bundled.Differences
import ExternalAtoms.Proofs.Evaluation.Value

/-! # Learning from inputs and outputs is sound

An atom reports a relation that respects its declared properties. Then the nogood derived for a true
tuple under one interpretation is violated under no other one: wherever its input literals hold, the
tuple is true again.
-/
namespace ExternalAtoms
open SymbolTable Sample

theorem Interpretation.literalTruth_truth (i : Interpretation) (l : Symbol) :
    Nogood.literalTruth i.truth l = i.truth l := by
  have hpositive : l.positive.positive = l.positive := Symbol.positive_eq_self l.isNegated_positive
  simp only [Nogood.literalTruth, truth, hpositive, Symbol.isNegated_positive]
  rfl

theorem Evaluation.truthOf_ne_false {e : Evaluation} {t : Tuple} (h : t ∈ e.answer.trueTuples) :
    e.truthOf t ≠ .false := by
  rw [truthOf_of_true h]
  split <;> decide

namespace Evaluator

/-- The nogood derived for a tuple has the literals of its premise and the complement of its output
atom. Wherever the premise holds, an atom that respects its declarations answers the tuple again, so
no evaluation violates the nogood. -/
theorem input_output_learning_sound (ev : Evaluator) (predicate : String) (atom : ExternalAtom)
    (hatom : ev.registry.find? predicate = some atom)
    (final : SymbolTable) (hb : final.size ≤ 2 ^ 31)
    (R : List Symbol → (Nat → TupleSet) → Set Tuple) (hreports : atom.Reports final R)
    (hrespects : ∀ input, atom.signature.properties.Respects (R input))
    (input : List Symbol) (i : Interpretation) (table : SymbolTable) (hi : i.BuiltOn table)
    (draft : Draft) (hdraft : (ev.attempt predicate ⟨input, i⟩ table).result = .ok draft)
    (hfinal : Reaches (ev.attempt predicate ⟨input, i⟩ table).table final)
    (t : Tuple) (n : Nogood) (hn : (t, n) ∈ draft.answer.trueTuples.toList.zip draft.derived)
    (j : Interpretation)
    (hassigned : ∀ index a v, (Invocation.mk atom.signature input).InputAtom final j index a v →
      atom.signature.properties.isMonotonic index = false → ∃ w, i.truths[a]? = some w) :
    let call : Invocation := ⟨atom.signature, input⟩
    ∃ output, call.storeOutputAtom final t = (.ok output, final) ∧
      (∀ l, l ∈ n.literals ↔ call.InputLiteral final i l ∨ l = output.flip) ∧
      (∀ (later : SymbolTable) (answer : Answer), atom.Answers final ⟨input, j⟩ later answer →
        (∀ l, call.InputLiteral final i l → j.isTrue l = true) → t ∈ answer.trueTuples) ∧
      ∀ (other : Evaluator) (later : SymbolTable) (e : Evaluation),
        other.registry.find? predicate = some atom → j.BuiltOn later →
        (other.evaluate predicate input j later).result = .ok e →
        Reaches (other.evaluate predicate input j later).table final →
        ∀ value : Symbol → Truth, value output = e.truthOf t →
          (∀ l, call.InputLiteral final i l → value l.positive = j.truth l.positive) →
          n.status value ≠ .true := by
  intro call
  rw [attempt, hatom] at hdraft hfinal
  obtain ⟨hderives, given, hgiven, ht⟩ :=
    ExternalAtom.derives_of_mem_zip hi hdraft hfinal hb hn
  obtain ⟨output, houtput, hliterals⟩ := hderives.literals
  have hpersists : ∀ (later : SymbolTable) (answer : Answer),
      atom.Answers final ⟨input, j⟩ later answer →
      (∀ l, call.InputLiteral final i l → j.isTrue l = true) → t ∈ answer.trueTuples := by
    intro later answer hanswer hholds
    exact hreports.persists (hrespects input) hb hgiven hanswer
      ⟨hderives.decided, hholds, hassigned⟩ ht
  refine ⟨output, houtput.store_eq (hgiven.wellFormed hb), hliterals, hpersists, ?_⟩
  -- A violated nogood has a true premise and a false output atom, which persistence rules out.
  intro other later e hother hj he hlater value houtputValue hvalue hstatus
  obtain ⟨hpremise, hfalse⟩ := Nogood.premise_of_status hliterals houtput.2.1 hstatus
  obtain ⟨answer, hanswer, hsame⟩ := evaluate_answers hother hj he hlater
  have hmem : t ∈ answer.trueTuples := by
    refine hpersists later answer hanswer fun l hl => ?_
    have hl' := hpremise l hl
    rw [Nogood.literalTruth, hvalue l hl, ← Nogood.literalTruth, j.literalTruth_truth] at hl'
    rw [Interpretation.isTrue, hl']
    rfl
  rw [← hsame] at hmem
  exact Evaluation.truthOf_ne_false hmem (houtputValue.symm.trans hfalse)

def subtraction : ExternalAtom :=
  ⟨⟨"testSetMinus", [.predicate, .predicate], 1, { monotonic := [0], antimonotonic := [1] }⟩,
    Bundled.setMinus⟩

def subtracting : Evaluator where
  registry := Registry.empty.insert "TestPlugin" subtraction

def subtracted : Attempt :=
  subtracting.attempt "testSetMinus" ⟨[⟨0⟩, ⟨2⟩], leftWhen .false⟩ threeAtoms

theorem input_output_learning_sound_subtraction :
    ∃ draft answer, subtracted.result = .ok draft ∧
      ([⟨4⟩], Nogood.ofList [⟨8⟩, ⟨11⟩, ⟨15⟩]) ∈ draft.answer.trueTuples.toList.zip draft.derived ∧
      subtraction.Answers subtracted.table ⟨[⟨0⟩, ⟨2⟩], leftWhen .true⟩ threeAtoms answer ∧
      [⟨4⟩] ∈ answer.trueTuples := by
  have hb : subtracted.table.size ≤ 2 ^ 31 := by decide
  have hreaches : Reaches threeAtoms subtracted.table := subtracting.attempt_reaches _ _ _
  have hrespects : ∀ input,
      subtraction.signature.properties.Respects (Bundled.differenceOf input) :=
    fun input => Bundled.differenceOf_respects input (by decide) (by decide)
  have hassigned : ∀ index a v, (Invocation.mk subtraction.signature [⟨0⟩, ⟨2⟩]).InputAtom
      subtracted.table (leftWhen .true) index a v →
      subtraction.signature.properties.isMonotonic index = false →
      ∃ w, (leftWhen .false).truths[a]? = some w := by
    rintro index a v ⟨p, -, -, -, ha⟩ -
    have hmem : a ∈ (leftWhen .true).truths := by
      rw [Std.ExtTreeMap.mem_iff_isSome_getElem?, ha]
      rfl
    rw [mem_leftWhen, ← mem_leftWhen .false, Std.ExtTreeMap.mem_iff_isSome_getElem?] at hmem
    exact Option.isSome_iff_exists.mp hmem
  have hholds : ∀ l ∈ (Nogood.ofList [⟨8⟩, ⟨11⟩, ⟨15⟩]).literals, (leftWhen .true).isTrue l := by
    decide
  obtain ⟨draft, hdraft, hmem⟩ : ∃ draft, subtracted.result = .ok draft ∧
      ([⟨4⟩], Nogood.ofList [⟨8⟩, ⟨11⟩, ⟨15⟩]) ∈
        draft.answer.trueTuples.toList.zip draft.derived := ⟨_, rfl, by decide⟩
  obtain ⟨answer, hanswer⟩ : ∃ answer, subtraction.Answers subtracted.table
      ⟨[⟨0⟩, ⟨2⟩], leftWhen .true⟩ threeAtoms answer :=
    ⟨_, leftWhen_builtOn .true, rfl, rfl, hreaches⟩
  obtain ⟨output, -, hliterals, hpersists, -⟩ := input_output_learning_sound subtracting
    "testSetMinus" subtraction rfl subtracted.table hb Bundled.differenceOf
    (Bundled.setMinus_reports rfl rfl rfl) hrespects [⟨0⟩, ⟨2⟩] (leftWhen .false) threeAtoms
    (leftWhen_builtOn .false) draft hdraft .refl [⟨4⟩] _ hmem (leftWhen .true) hassigned
  refine ⟨draft, answer, hdraft, hmem, hanswer, hpersists threeAtoms answer hanswer ?_⟩
  intro l hl
  exact hholds l ((hliterals l).mpr (Or.inl hl))

end Evaluator

end ExternalAtoms
