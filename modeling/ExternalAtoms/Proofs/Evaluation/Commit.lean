import ExternalAtoms.Evaluation.Evaluator
import ExternalAtoms.Proofs.Nogood.History

/-! # What an evaluation leaves in the evaluator

A successful evaluation adds nogoods of its draft to the log, namely those that have literals and
no complementary pair. What it says it learned is what was not in the log before. The registry and
the settings stay as they were.
-/
namespace ExternalAtoms

namespace Evaluator
variable {n : Nogood}

theorem learn_fst_iff {ev : Evaluator} {derived : Bool} {m : Nogood} :
    (ev.learn derived m).1 = true ↔ m.Proper ∧ m ∉ ev.log.toList := NogoodLog.insert_fst_iff

theorem learn_log (ev : Evaluator) (derived : Bool) (m : Nogood) :
    (ev.learn derived m).2.log.toList =
      if (ev.learn derived m).1 = true then ev.log.toList ++ [m] else ev.log.toList :=
  ev.log.toList_insert m

theorem mem_learn_iff {ev : Evaluator} {derived : Bool} {m : Nogood} :
    n ∈ (ev.learn derived m).2.log.toList ↔ n ∈ ev.log.toList ∨ n.Proper ∧ n = m := by
  rw [learn_log]
  split
  · next hnew =>
    obtain ⟨hproper, -⟩ := learn_fst_iff.mp hnew
    rw [List.mem_append, List.mem_singleton]
    refine or_congr_right ⟨?_, And.right⟩
    rintro rfl
    exact ⟨hproper, rfl⟩
  · next hold =>
    refine (or_iff_left_of_imp ?_).symm
    rintro ⟨hproper, rfl⟩
    exact Classical.byContradiction fun hmem => hold (learn_fst_iff.mpr ⟨hproper, hmem⟩)

theorem mem_learnAll_iff {derived : Bool} {offered : List Nogood} {ev : Evaluator} :
    n ∈ (ev.learnAll derived offered).2.log.toList ↔
      n ∈ ev.log.toList ∨ n.Proper ∧ n ∈ offered := by
  induction offered generalizing ev with
  | nil => simp [learnAll]
  | cons m rest ih =>
    change n ∈ ((ev.learn derived m).2.learnAll derived rest).2.log.toList ↔ _
    rw [ih, mem_learn_iff, List.mem_cons, and_or_left, or_assoc]

theorem mem_learnAll_fst_iff {derived : Bool} {offered : List Nogood} {ev : Evaluator} :
    n ∈ (ev.learnAll derived offered).1 ↔
      (n.Proper ∧ n ∈ offered) ∧ n ∉ ev.log.toList := by
  induction offered generalizing ev with
  | nil => simp [learnAll]
  | cons m rest ih =>
    have hlog := @mem_learn_iff n ev derived m
    have hnew := @learn_fst_iff ev derived m
    simp only [learnAll]
    split
    · rw [List.mem_cons, ih, hlog]
      grind
    · rw [ih, hlog]
      grind

theorem learnAll_registry (derived : Bool) (offered : List Nogood) (ev : Evaluator) :
    (ev.learnAll derived offered).2.registry = ev.registry ∧
      (ev.learnAll derived offered).2.settings = ev.settings := by
  induction offered generalizing ev with
  | nil => exact ⟨rfl, rfl⟩
  | cons m rest ih => exact ih (ev.learn derived m).2

theorem evaluate_registry (ev : Evaluator) (predicate : String) (input : List Symbol)
    (i : Interpretation) (table : SymbolTable) :
    (ev.evaluate predicate input i table).evaluator.registry = ev.registry ∧
      (ev.evaluate predicate input i table).evaluator.settings = ev.settings := by
  simp only [evaluate]
  split
  · exact ⟨rfl, rfl⟩
  · simp only [commit]
    refine ⟨?_, ?_⟩
    · rw [(learnAll_registry _ _ _).1, (learnAll_registry _ _ _).1]
    · rw [(learnAll_registry _ _ _).2, (learnAll_registry _ _ _).2]

section Evaluate
variable {ev : Evaluator} {predicate : String} {input : List Symbol} {i : Interpretation}
  {table : SymbolTable}

/-- After a successful evaluation the log has the old nogoods and the proper ones of the draft. -/
theorem mem_log_iff {draft : Draft}
    (hd : (ev.attempt predicate ⟨input, i⟩ table).result = .ok draft) :
    n ∈ (ev.evaluate predicate input i table).evaluator.log.toList ↔
      n ∈ ev.log.toList ∨ n.Proper ∧ (n ∈ draft.submitted ∨ n ∈ draft.derived) := by
  simp only [evaluate, hd, commit, mem_learnAll_iff]
  rw [or_assoc, ← and_or_left]

theorem mem_learned_iff {e : Evaluation}
    (he : (ev.evaluate predicate input i table).result = .ok e) :
    n ∈ e.learned ↔ n ∈ (ev.evaluate predicate input i table).evaluator.log.toList ∧
      n ∉ ev.log.toList := by
  simp only [evaluate] at he ⊢
  split at he
  · simp at he
  · next draft hdraft =>
    obtain rfl := Except.ok.inj he
    simp only [commit, List.mem_append, mem_learnAll_fst_iff, mem_learnAll_iff]
    grind

/-- A nogood that is new after an evaluation is in the draft of the attempt. -/
theorem mem_evaluate (h : n ∈ (ev.evaluate predicate input i table).evaluator.log.toList) :
    n ∈ ev.log.toList ∨ n.Proper ∧
      ∃ draft, (ev.attempt predicate ⟨input, i⟩ table).result = .ok draft ∧
        (n ∈ draft.submitted ∨ n ∈ draft.derived) := by
  cases hd : (ev.attempt predicate ⟨input, i⟩ table).result with
  | error e =>
    simp only [evaluate, hd] at h
    exact Or.inl h
  | ok draft =>
    rw [mem_log_iff hd] at h
    exact h.imp_right fun hnew => ⟨hnew.1, draft, rfl, hnew.2⟩

end Evaluate

end Evaluator

end ExternalAtoms
