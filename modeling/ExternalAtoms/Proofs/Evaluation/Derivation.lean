import ExternalAtoms.Proofs.Evaluation.Draft
import ExternalAtoms.Proofs.Evaluation.Justification

/-! # Derived nogoods

Every nogood that an evaluation derives belongs to a true tuple of its answer. It has the literals
of the input atoms and the complement of the output atom of the tuple, and no input atom could still
change the answer. This can be read off the final table of the session.
-/
namespace ExternalAtoms
open SymbolTable

/-- This nogood says that the input literals justify the tuple. -/
structure Invocation.Derives (call : Invocation) (table : SymbolTable) (i : Interpretation)
    (t : Tuple) (n : Nogood) : Prop where
  decided : ∀ index a v, call.InputAtom table i index a v →
    call.signature.properties.contribution index a v ≠ .undecided
  literals : ∃ output, call.IsOutputAtom table t output ∧
    ∀ l, l ∈ n.literals ↔ call.InputLiteral table i l ∨ l = output.flip

namespace Invocation
variable {call : Invocation} {table later : SymbolTable} {i : Interpretation} {t : Tuple}
  {n : Nogood}

theorem inputLiteral_iff_of_extends (hi : i.Faithful table) (hl : Extends table later)
    (hw : WellFormed later) {l : Symbol} :
    call.InputLiteral later i l ↔ call.InputLiteral table i l := by
  simp only [InputLiteral, inputAtom_iff_of_extends hi hl hw]

theorem derives_justify {premise : List Symbol} {output : Symbol}
    (hpremise : call.signature.properties.Collects (call.InputAtom table i) (some premise))
    (houtput : call.IsOutputAtom table t output) :
    call.Derives table i t (justify premise output) := by
  refine ⟨hpremise.1, output, houtput, fun l => ?_⟩
  rw [justify, Nogood.mem_ofList, List.mem_append, List.mem_singleton, hpremise.2]
  rfl

theorem deriveNogoods_ok (hw : WellFormed table) (hi : i.Faithful table) {tuples : List Tuple}
    {derived : List Nogood} (h : (call.deriveNogoods i tuples table).1 = .ok derived)
    (hlater : Reaches (call.deriveNogoods i tuples table).2 later) (hb : later.size ≤ 2 ^ 31) :
    derived = [] ∧ (∃ index a v, call.InputAtom later i index a v ∧
        call.signature.properties.contribution index a v = .undecided) ∨
      List.Forall₂ (call.Derives later i) tuples derived := by
  have hreaches := (call.deriveNogoods_reaches i tuples table).trans hlater
  have hle := Nat.le_trans hlater.size_le hb
  obtain ⟨htable, hcollects⟩ := call.premise_collects hw hi
  have hpremise := hcollects.congr fun index a v =>
    (inputAtom_iff_of_extends hi hreaches.toExtends (hw.reaches hreaches hb)).symm
  unfold deriveNogoods at h hlater hle
  dsimp only at h hlater hle
  cases hp : (call.premise i table).1 with
  | none =>
    rw [hp] at h hpremise
    exact Or.inl ⟨(Except.ok.inj h).symm, hpremise⟩
  | some premise =>
    rw [hp] at hpremise
    simp only [hp, htable] at h hlater hle
    cases hs : (call.storeOutputAtoms table tuples).1 with
    | error e => simp [hs, Except.map] at h
    | ok outputs =>
      simp only [hs, Except.map, Except.ok.injEq] at h
      subst h
      refine Or.inr (List.forall₂_map_right_iff.mpr ((storeOutputAtoms_ok hw hs hle).imp ?_))
      intro t output houtput
      exact derives_justify hpremise (houtput.extend hlater.toExtends)

end Invocation

/-- Asked at this table, which leads to the final one, the atom gives this answer. -/
structure ExternalAtom.Answers (a : ExternalAtom) (final : SymbolTable) (q : Query)
    (table : SymbolTable) (answer : Answer) : Prop where
  built : q.interpretation.BuiltOn table
  accepted : a.signature.checkInput table q.input = .ok ()
  answered : (a.ask q table).1 = .ok answer
  reaches : Reaches (a.ask q table).2.table final

namespace ExternalAtom
variable {a : ExternalAtom} {settings : Settings} {q : Query} {table final : SymbolTable}
  {draft : Draft}

section Attempt
variable (hq : q.interpretation.BuiltOn table)
  (h : (a.attempt settings q table).result = .ok draft)
  (hfinal : Reaches (a.attempt settings q table).table final)
include hq h hfinal

theorem attempt_answers : ∃ given dropped, a.Answers final q table given ∧
    a.signature.checkAnswer settings given = .ok (draft.answer, dropped) := by
  obtain ⟨given, dropped, hinput, hgiven, hanswer, hconclude⟩ := attempt_ok h
  have hconcluded := Invocation.conclude_reaches ⟨a.signature, q.input⟩ settings q.interpretation
    draft.answer (a.ask q table).2.pending.toList (a.ask q table).2.table
  rw [hconclude] at hconcluded
  exact ⟨given, dropped, ⟨hq, hinput, hgiven, hconcluded.trans hfinal⟩, hanswer⟩

/-- A draft has a derived nogood for every true tuple, or none because there is nothing to learn. -/
theorem attempt_derives (hb : final.size ≤ 2 ^ 31) :
    draft.derived = [] ∧ (Invocation.learns ⟨a.signature, q.input⟩ settings = false ∨
        ∃ index b v, Invocation.InputAtom ⟨a.signature, q.input⟩ final q.interpretation index b v ∧
          a.signature.properties.contribution index b v = .undecided) ∨
      Invocation.learns ⟨a.signature, q.input⟩ settings = true ∧
        List.Forall₂ (Invocation.Derives ⟨a.signature, q.input⟩ final q.interpretation)
          draft.answer.trueTuples.toList draft.derived := by
  obtain ⟨given, dropped, -, -, -, hconclude⟩ := attempt_ok h
  obtain ⟨-, -, -, hderived⟩ := Invocation.conclude_ok (congrArg Prod.fst hconclude)
  rw [hconclude] at hderived
  rcases hderived with ⟨hoff, hnone⟩ | ⟨hon, hsome, hstored⟩
  · exact Or.inl ⟨hnone, Or.inl hoff⟩
  · have hbuilt := hq.extend (a.ask_reaches q table)
    have hlearned := Invocation.deriveNogoods_reaches ⟨a.signature, q.input⟩ q.interpretation
      draft.answer.trueTuples.toList (a.ask q table).2.table
    have hlater := hstored.trans hfinal
    have hle := Nat.le_trans (hlearned.trans hlater).size_le hb
    rcases Invocation.deriveNogoods_ok (hbuilt.reached.wellFormed hle) (hbuilt.faithful hle) hsome
      hlater hb with ⟨hnone, hundecided⟩ | hall
    · exact Or.inl ⟨hnone, Or.inr hundecided⟩
    · exact Or.inr ⟨hon, hall⟩

theorem attempt_derived (hb : final.size ≤ 2 ^ 31) (hne : draft.derived ≠ []) :
    List.Forall₂ (Invocation.Derives ⟨a.signature, q.input⟩ final q.interpretation)
      draft.answer.trueTuples.toList draft.derived := by
  rcases attempt_derives hq h hfinal hb with ⟨hnone, -⟩ | ⟨-, hall⟩
  · exact absurd hnone hne
  · exact hall

theorem derives_of_mem_zip (hb : final.size ≤ 2 ^ 31) {t : Tuple} {n : Nogood}
    (hn : (t, n) ∈ draft.answer.trueTuples.toList.zip draft.derived) :
    Invocation.Derives ⟨a.signature, q.input⟩ final q.interpretation t n ∧
      ∃ given, a.Answers final q table given ∧ t ∈ given.trueTuples := by
  obtain ⟨ht, hmem⟩ := List.of_mem_zip hn
  have hderived := attempt_derived hq h hfinal hb (List.ne_nil_of_mem hmem)
  obtain ⟨given, dropped, hgiven, hanswer⟩ := attempt_answers hq h hfinal
  refine ⟨(List.forall₂_iff_zip.mp hderived).2 hn, given, hgiven, ?_⟩
  rwa [← Signature.trueTuples_of_checkAnswer hanswer, ← Std.ExtTreeSet.mem_toList]

end Attempt

end ExternalAtom

namespace Evaluator

theorem evaluate_answers {ev : Evaluator} {predicate : String} {atom : ExternalAtom}
    (hatom : ev.registry.find? predicate = some atom) {input : List Symbol} {j : Interpretation}
    {table final : SymbolTable} (hj : j.BuiltOn table) {e : Evaluation}
    (he : (ev.evaluate predicate input j table).result = .ok e)
    (hfinal : Reaches (ev.evaluate predicate input j table).table final) :
    ∃ given, atom.Answers final ⟨input, j⟩ table given ∧
      e.answer.trueTuples = given.trueTuples := by
  obtain ⟨draft, hdraft, hanswer, -⟩ := exists_draft hatom he
  rw [evaluate_table, attempt, hatom] at hfinal
  obtain ⟨given, dropped, hgiven, hchecked⟩ := ExternalAtom.attempt_answers hj hdraft hfinal
  exact ⟨given, hgiven, hanswer ▸ Signature.trueTuples_of_checkAnswer hchecked⟩

end Evaluator

end ExternalAtoms
