import ExternalAtoms.Proofs.Evaluation.Derivation
import ExternalAtoms.Proofs.Evaluation.Session
import ExternalAtoms.Proofs.Symbol.Rendering

/-! # The log holds constraints over known atoms

A submitted nogood is examined literal by literal. A derived one consists of input atoms, the heads
of which are stored, and of an output atom, whose name is an identifier because its predicate was
validated. Both keep their meaning while the table grows, so every nogood of the log can be read,
rendered and negated for the rest of the session.
-/
namespace ExternalAtoms
open SymbolTable Sample

/-- Every literal of the nogood stands for an atom of the table. -/
def Nogood.OverAtoms (table : SymbolTable) (n : Nogood) : Prop :=
  ∀ l ∈ n.literals, (table.isAtom l).1 = true

theorem Nogood.OverAtoms.extend {table later : SymbolTable} {n : Nogood} (h : n.OverAtoms table)
    (hl : Extends table later) : n.OverAtoms later := fun l hmem => hl.isAtom (h l hmem)

theorem SymbolTable.checkLiterals_ok {table : SymbolTable} {literals : List Symbol}
    (h : (table.checkLiterals literals).1 = .ok ()) :
    ∀ l ∈ literals, ((table.checkLiterals literals).2.isAtom l).1 = true := by
  induction literals generalizing table with
  | nil => simp
  | cons literal rest ih =>
    have hasked := run_extends (.isAtom literal) table
    have hrest := ((table.isAtom literal).2.checkLiterals_reaches rest).toExtends
    unfold checkLiterals at h ⊢
    split at h
    · next hknown =>
      rw [if_pos hknown]
      dsimp only at h ⊢
      split at h
      · next hatom =>
        rw [if_pos hatom]
        intro l hl
        rcases List.mem_cons.mp hl with rfl | hl
        · exact hrest.isAtom (hasked.isAtom hatom)
        · exact ih h l hl
      · simp at h
    · simp at h

/-- All nogoods that are pending were examined. -/
def Workspace.Examined (w : Workspace) : Prop := ∀ n ∈ w.pending.toList, n.OverAtoms w.table

namespace Workspace.Examined
variable {w : Workspace}

theorem grow (h : w.Examined) {table : SymbolTable} (hl : Extends w.table table) :
    Examined { w with table } := fun n hn => (h n hn).extend hl

theorem learn (h : w.Examined) (n : Nogood) : (w.learn n).2.Examined := by
  have hl := (w.table.checkNogood_reaches n).toExtends
  unfold Workspace.learn
  dsimp only
  split
  · exact h.grow hl
  · next hok =>
    intro m hm
    rw [Array.toList_push, List.mem_append, List.mem_singleton] at hm
    rcases hm with hm | rfl
    · exact h.grow hl m hm
    · unfold checkNogood at hok ⊢
      split at hok
      · simp at hok
      · next hne =>
        rw [if_neg hne]
        exact checkLiterals_ok hok

theorem action (h : w.Examined) (call : Invocation) (a : Action) : (a.run call w).2.Examined := by
  have hl := (a.run_reaches call w).toExtends
  cases a with
  | store request => exact h.grow hl
  | outputAtom tuple => exact h.grow hl
  | learn n => exact h.learn n
  | read => exact h

theorem run {α : Type} (h : w.Examined) (call : Invocation) (program : Retrieval α) :
    (program.run call w).2.Examined := by
  induction program generalizing w with
  | done result => exact h
  | perform a next ih => exact ih _ (h.action call a)

end Workspace.Examined

namespace Invocation
variable {call : Invocation} {table : SymbolTable} {i : Interpretation} {t : Tuple} {n : Nogood}
  {l : Symbol}

theorem InputLiteral.isAtom (h : call.InputLiteral table i l) : (table.isAtom l).1 = true := by
  obtain ⟨index, a, v, ⟨p, -, -, ha, -⟩, hl⟩ := h
  -- A contributed literal is the input atom or its complement.
  have hpair : l = a ∨ l = a.flip := by
    unfold Properties.contribution at hl
    cases v <;> dsimp only at hl <;> split at hl <;> cases hl <;> simp
  rcases hpair with rfl | rfl
  · exact ha.isAtom
  · rw [isAtom_flip]
    exact ha.isAtom

theorem Derives.overAtoms (h : call.Derives table i t n)
    (hname : Text.isIdentifier call.signature.predicate = true) : n.OverAtoms table := by
  obtain ⟨output, ho, hliterals⟩ := h.literals
  intro l hl
  rcases (hliterals l).mp hl with hinput | rfl
  · exact hinput.isAtom
  · rw [isAtom_flip]
    exact ho.isAtom hname

end Invocation

namespace Evaluator
variable {calls : List Call} {ev : Evaluator} {table : SymbolTable} {c : Call} {draft : Draft}
  {n : Nogood}

theorem Call.Kept.overAtoms (h : c.Kept ev table) (hb : c.attempt.table.size ≤ 2 ^ 31)
    (hbuilt : c.query.interpretation.BuiltOn c.table) (hd : c.attempt.result = .ok draft)
    (hn : n ∈ draft.submitted ∨ n ∈ draft.derived) : n.OverAtoms c.attempt.table := by
  obtain ⟨atom, hfind, hattempt⟩ := Call.attempt_ok hd
  rw [hattempt] at hb hd ⊢
  rcases hn with hn | hn
  · have hstart : (Workspace.ofTable c.table).Examined := by
      simp [Workspace.Examined, Workspace.ofTable]
    have hexamined := hstart.run ⟨atom.signature, c.query.input⟩ (atom.retrieve c.query)
    obtain ⟨given, dropped, -, -, -, hconclude⟩ := ExternalAtom.attempt_ok hd
    have hconcluded := Invocation.conclude_reaches ⟨atom.signature, c.query.input⟩
      c.evaluator.settings c.query.interpretation draft.answer
      (atom.ask c.query c.table).2.pending.toList (atom.ask c.query c.table).2.table
    rw [hconclude] at hconcluded
    rw [ExternalAtom.submitted_of_attempt hd] at hn
    exact (hexamined n hn).extend hconcluded.toExtends
  · have hderived := ExternalAtom.attempt_derived hbuilt hd .refl hb (List.ne_nil_of_mem hn)
    obtain ⟨t, -, ht⟩ := exists_of_mem_forall₂ hderived hn
    obtain ⟨hpredicate, hidentifier⟩ := h.sound c.predicate atom hfind
    rw [← hpredicate] at hidentifier
    exact ht.overAtoms hidentifier

/-- Every nogood of the log has literals, in ascending order and no two of them complementary, and
they are known atoms that can be rendered and negated from now on. -/
theorem log_constrains_known_atoms (h : Session calls ev table)
    (hbuilt : ∀ c ∈ calls, c.query.interpretation.BuiltOn c.table) (n : Nogood)
    (hn : n ∈ ev.log.toList) :
    n.literals ≠ [] ∧ (∀ l ∈ n.literals, l.flip ∉ n.literals) ∧
      n.literals.Pairwise (fun l m => l.raw < m.raw) ∧
      ∀ later : SymbolTable, Reaches table later → later.size ≤ 2 ^ 31 → ∀ l ∈ n.literals,
        later.isKnown l = true ∧ (later.isAtom l).1 = true ∧
          (∃ text, later.render l = .ok text) ∧ (later.negate l).1 = .ok l.flip := by
  obtain ⟨hproper, c, hc, draft, hd, hnew⟩ := h.origin hn
  refine ⟨hproper.1, hproper.2, n.ascending, fun later hlater hb l hl => ?_⟩
  have hkept := h.kept c hc
  have hreaches := hkept.reaches.trans hlater
  rw [c.outcome_table] at hreaches
  have hover := (hkept.overAtoms (Nat.le_trans hreaches.size_le hb) (hbuilt c hc) hd hnew).extend
    hreaches.toExtends
  have hatom := hover l hl
  have hknown := known_of_isAtom hatom
  obtain ⟨a, ha⟩ := ((h.reached.trans hlater).wellFormed hb).tree_ok hknown
  exact ⟨hknown, hatom, ⟨_, render_of_tree ha⟩, negate_of_isAtom hatom⟩

/-- The nogood with `p(b)` was submitted by the second call, which stored its two other atoms. -/
theorem log_constrains_known_atoms_twoCalls :
    ∃ n ∈ secondCall.outcome.evaluator.log.toList, n.literals.length = 3 ∧ ⟨12⟩ ∈ n.literals ∧
      ∀ l ∈ n.literals, (∃ text, secondCall.outcome.table.render l = .ok text) ∧
        (secondCall.outcome.table.negate l).1 = .ok l.flip := by
  have hb : secondCall.outcome.table.size ≤ 2 ^ 31 := by decide
  obtain ⟨n, hn, hthree, hmem⟩ : ∃ n ∈ secondCall.outcome.evaluator.log.toList,
      n.literals.length = 3 ∧ ⟨12⟩ ∈ n.literals := by decide
  obtain ⟨-, -, -, hlater⟩ := log_constrains_known_atoms twoCalls twoCalls_builtOn n hn
  exact ⟨n, hn, hthree, hmem, fun l hl => (hlater _ .refl hb l hl).2.2⟩

end Evaluator

end ExternalAtoms
