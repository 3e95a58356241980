import ExternalAtoms.Proofs.Interpretation.Built

/-! # Refining an interpretation

As the search goes on it gives values to undecided atoms. An interpretation refines another one of
the same atoms when every atom that was true or false has kept its value. A complete interpretation
can only be refined by one with the same values, and values determine the extensions.
-/
namespace ExternalAtoms
open SymbolTable

namespace Interpretation
variable {i j : Interpretation} {table : SymbolTable} {a : Symbol} {v : Truth}

/-- The same atoms have values in both, and only undecided atoms may have changed theirs. -/
structure RefinedBy (i j : Interpretation) : Prop where
  assigned : ∀ a : Symbol, a ∈ i.truths ↔ a ∈ j.truths
  keeps : ∀ (a : Symbol) (v : Truth), i.truths[a]? = some v → v ≠ .unknown → j.truths[a]? = some v

namespace RefinedBy

theorem was_possible (h : i.RefinedBy j) (ha : j.truths[a]? = some v) (hv : v ≠ .false) :
    ∃ v', i.truths[a]? = some v' ∧ v' ≠ .false := by
  have hmem : a ∈ i.truths := by
    rw [h.assigned, Std.ExtTreeMap.mem_iff_isSome_getElem?, ha]
    rfl
  rw [Std.ExtTreeMap.mem_iff_isSome_getElem?] at hmem
  obtain ⟨v', hv'⟩ := Option.isSome_iff_exists.mp hmem
  refine ⟨v', hv', ?_⟩
  rintro rfl
  have hfalse := h.keeps a _ hv' (by decide)
  exact hv (Option.some.inj (ha.symm.trans hfalse))

theorem same_of_complete (h : i.RefinedBy j)
    (hcomplete : ∀ a : Symbol, i.truths[a]? ≠ some .unknown) (a : Symbol) :
    i.truths[a]? = j.truths[a]? := by
  cases hv : i.truths[a]? with
  | none =>
    have hnone : a ∉ j.truths := by
      rw [← h.assigned, Std.ExtTreeMap.mem_iff_isSome_getElem?, hv]
      simp
    rw [Std.ExtTreeMap.getElem?_eq_none hnone]
  | some v =>
    have hdecided : v ≠ .unknown := fun he => hcomplete a (he ▸ hv)
    rw [h.keeps a v hv hdecided]

end RefinedBy

namespace Snapshot

theorem isPartial_eq_false_iff (h : i.Snapshot table) :
    i.isPartial = false ↔ ∀ a : Symbol, i.truths[a]? ≠ some .unknown := by
  rw [← Bool.not_eq_true, h.isPartial_iff, not_exists]

/-- The values determine the extensions, in whatever order the atoms were assigned. -/
theorem extension_eq (hi : i.Snapshot table) (hj : j.Snapshot table)
    (hsame : ∀ a : Symbol, i.truths[a]? = j.truths[a]?) : i.extension = j.extension := by
  funext p
  refine Std.ExtTreeSet.ext_mem fun x => ?_
  rw [hi.mem_extension, hj.mem_extension]
  simp only [hsame]

end Snapshot

end Interpretation

namespace Sample

theorem leftWhen_refinedBy (truth : Truth) : (leftWhen .unknown).RefinedBy (leftWhen truth) := by
  constructor
  · intro a
    rw [mem_leftWhen, mem_leftWhen]
  · intro a v ha hv
    rw [leftWhen_truths, oneLeft, Assignment.set, Std.ExtTreeMap.getElem?_insert] at ha ⊢
    split at ha
    · exact absurd (Option.some.inj ha).symm hv
    · next hother => rwa [if_neg hother]

end Sample

end ExternalAtoms
