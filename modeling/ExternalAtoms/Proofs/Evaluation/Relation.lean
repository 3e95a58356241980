import ExternalAtoms.Proofs.Evaluation.Derivation

/-! # Atoms that report a relation

Many atoms report as true exactly the tuples of a relation on their input and the extensions of
their predicate inputs. When the relation respects the declared properties, a true tuple stays one
under every interpretation in which its premise holds.
-/
namespace ExternalAtoms
open SymbolTable

/-- Whenever the atom answers, exactly the tuples of the relation are true. -/
def ExternalAtom.Reports (a : ExternalAtom) (final : SymbolTable)
    (R : List Symbol → (Nat → TupleSet) → Set Tuple) : Prop :=
  ∀ (q : Query) (table : SymbolTable) (answer : Answer), a.Answers final q table answer →
    ∀ t, t ∈ answer.trueTuples ↔ t ∈ R q.input (a.signature.extensionAt q)

theorem Signature.extensionAt_of_length_le {s : Signature} {q : Query} {index : Nat}
    (h : q.input.length ≤ index) : s.extensionAt q index = ∅ := by
  unfold extensionAt
  split
  · rw [Query.arg?, List.getElem?_eq_none h]
    rfl
  · rfl

namespace ExternalAtom.Answers
variable {a : ExternalAtom} {final table : SymbolTable} {q : Query} {answer : Answer}

theorem builtOn (h : a.Answers final q table answer) : q.interpretation.BuiltOn final :=
  (h.built.extend (a.ask_reaches q table)).extend h.reaches

theorem faithful (h : a.Answers final q table answer) (hb : final.size ≤ 2 ^ 31) :
    q.interpretation.Faithful final := h.builtOn.faithful hb

theorem wellFormed (h : a.Answers final q table answer) (hb : final.size ≤ 2 ^ 31) :
    WellFormed final := h.builtOn.reached.wellFormed hb

theorem exists_run (h : a.Answers final q table answer) :
    ∃ w, (a.retrieve q).run ⟨a.signature, q.input⟩ (.ofTable table) = (.ok answer, w) ∧
      Admits table ∧ Grows table w.table ∧ Grows w.table final := by
  have hadmits := h.built.reached.admits
  have hasked := Reaches.grows hadmits (a.ask_reaches q table)
  exact ⟨(a.ask q table).2, Prod.ext h.answered rfl, hadmits, hasked,
    Reaches.grows (hasked.admits hadmits) h.reaches⟩

theorem grows (h : a.Answers final q table answer) : Grows table final := by
  obtain ⟨_, -, -, hbefore, hafter⟩ := h.exists_run
  exact hbefore.trans hafter

theorem exists_wellFormed_run (h : a.Answers final q table answer) (hb : final.size ≤ 2 ^ 31) :
    ∃ w, (a.retrieve q).run ⟨a.signature, q.input⟩ (.ofTable table) = (.ok answer, w) ∧
      WellFormed table ∧ w.table.size ≤ 2 ^ 31 ∧ Extends table w.table ∧
      Extends w.table final := by
  obtain ⟨w, hrun, -, hbefore, hafter⟩ := h.exists_run
  have hle := Nat.le_trans hafter.toExtends.size_le hb
  have hw := h.built.reached.wellFormed (Nat.le_trans hbefore.toExtends.size_le hle)
  exact ⟨w, hrun, hw, hle, hbefore.toExtends, hafter.toExtends⟩

end ExternalAtom.Answers

namespace ExternalAtom.Reports
variable {a : ExternalAtom} {final table later : SymbolTable} {input : List Symbol}
  {R : List Symbol → (Nat → TupleSet) → Set Tuple} {i j : Interpretation} {answer answer' : Answer}

/-- A true tuple stays true where its premise holds. -/
theorem persists (h : a.Reports final R) (hR : a.signature.properties.Respects (R input))
    (hb : final.size ≤ 2 ^ 31) (hi : a.Answers final ⟨input, i⟩ table answer)
    (hj : a.Answers final ⟨input, j⟩ later answer')
    (hjust : Invocation.Justifies ⟨a.signature, input⟩ final i j) {t : Tuple}
    (ht : t ∈ answer.trueTuples) : t ∈ answer'.trueTuples := by
  rw [h _ _ _ hi] at ht
  rw [h _ _ _ hj]
  have hfavours := hjust.favours (hi.faithful hb) (hj.faithful hb)
  have hbeyond : ∀ index, input.length ≤ index →
      a.signature.extensionAt ⟨input, i⟩ index = a.signature.extensionAt ⟨input, j⟩ index := by
    intro index hindex
    rw [Signature.extensionAt_of_length_le hindex, Signature.extensionAt_of_length_le hindex]
  exact hR.subset_of_favours hfavours hbeyond ht

end ExternalAtom.Reports

end ExternalAtoms
