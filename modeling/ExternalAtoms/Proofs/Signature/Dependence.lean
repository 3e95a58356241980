import ExternalAtoms.Retrieval.Query
import ExternalAtoms.Signature.Basic
import Mathlib.Data.Set.Basic
import Mathlib.Logic.Function.Basic

/-! # How an output relation depends on extensions

The extensions that an atom reads are indexed by input position. A relation respects the declared
properties when it only grows with an extension at a monotonic position and only shrinks with one at
an antimonotonic position. Then it keeps its tuples whenever the extensions change in the allowed
directions only, all at once.
-/
namespace ExternalAtoms

/-- The extension read at a position; there is none where no predicate is an input. -/
def Signature.extensionAt (s : Signature) (q : Query) (index : Nat) : TupleSet :=
  if s.kindAt index = some .predicate then ((q.arg? index).map q.extension).getD ∅ else ∅

structure Properties.Respects (p : Properties) (R : (Nat → TupleSet) → Set Tuple) : Prop where
  grows : ∀ (E : Nat → TupleSet) (index : Nat) (X : TupleSet), p.isMonotonic index = true →
    (∀ x ∈ E index, x ∈ X) → R E ⊆ R (Function.update E index X)
  shrinks : ∀ (E : Nat → TupleSet) (index : Nat) (X : TupleSet), p.isAntimonotonic index = true →
    (∀ x ∈ E index, x ∈ X) → R (Function.update E index X) ⊆ R E

/-- At every position the extension changes only in a direction that adds outputs: it loses nothing
unless it is antimonotonic there, and gains nothing unless it is monotonic there. -/
def Properties.Favours (p : Properties) (E X : Nat → TupleSet) : Prop :=
  ∀ index, (p.isAntimonotonic index = false → ∀ x ∈ E index, x ∈ X index) ∧
    (p.isMonotonic index = false → ∀ x ∈ X index, x ∈ E index)

namespace Properties
variable {p : Properties} {R : (Nat → TupleSet) → Set Tuple}

theorem Respects.const (p : Properties) (tuples : Set Tuple) : p.Respects fun _ => tuples :=
  ⟨fun _ _ _ _ _ => subset_rfl, fun _ _ _ _ _ => subset_rfl⟩

theorem Respects.lower (h : p.Respects R) (E : Nat → TupleSet) {index : Nat} {X : TupleSet}
    (ha : p.isAntimonotonic index = true) (hX : ∀ x ∈ X, x ∈ E index) :
    R E ⊆ R (Function.update E index X) := by
  have hshrinks := h.shrinks (Function.update E index X) index (E index) ha
    (by rwa [Function.update_self])
  rwa [Function.update_idem, Function.update_eq_self] at hshrinks

theorem Respects.update (h : p.Respects R) (E : Nat → TupleSet) {index : Nat} {X : TupleSet}
    (hkeep : p.isAntimonotonic index = false → ∀ x ∈ E index, x ∈ X)
    (hback : p.isMonotonic index = false → ∀ x ∈ X, x ∈ E index) :
    R E ⊆ R (Function.update E index X) := by
  cases hm : p.isMonotonic index with
  | false =>
    cases ha : p.isAntimonotonic index with
    | false =>
      have he : E index = X := Std.ExtTreeSet.ext_mem fun x => ⟨hkeep ha x, hback hm x⟩
      rw [← he, Function.update_eq_self]
    | true => exact h.lower E ha (hback hm)
  | true =>
    cases ha : p.isAntimonotonic index with
    | false => exact h.grows E index X hm (hkeep ha)
    | true =>
      -- declared both ways, the position may be emptied first and filled again
      have hempty := h.lower E ha (X := ∅) (by simp)
      have hfill := h.grows (Function.update E index ∅) index X hm (by simp)
      rw [Function.update_idem] at hfill
      exact hempty.trans hfill

theorem Respects.subset_of_favours (h : p.Respects R) {E X : Nat → TupleSet} (hf : p.Favours E X)
    {n : Nat} (hn : ∀ index, n ≤ index → E index = X index) : R E ⊆ R X := by
  induction n generalizing E with
  | zero =>
    obtain rfl : E = X := funext fun index => hn index (Nat.zero_le index)
    exact subset_rfl
  | succ n ih =>
    have hupdate : R E ⊆ R (Function.update E n (X n)) := h.update E (hf n).1 (hf n).2
    refine hupdate.trans (ih (fun index => ?_) fun index hindex => ?_)
    · by_cases he : index = n
      · subst he
        rw [Function.update_self]
        exact ⟨fun _ x hx => hx, fun _ x hx => hx⟩
      · rw [Function.update_of_ne he]
        exact hf index
    · by_cases he : index = n
      · rw [he, Function.update_self]
      · rw [Function.update_of_ne he]
        exact hn index (by omega)

end Properties

end ExternalAtoms
