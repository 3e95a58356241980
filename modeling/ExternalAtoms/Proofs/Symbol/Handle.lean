import ExternalAtoms.Symbol.Basic
import Mathlib.Algebra.Group.Nat.Defs

/-! # Index and sign of a handle

A handle is determined by its index and its sign. Taking the positive handle or the complement keeps
the index, and a positive handle is the one made from its index.
-/
namespace ExternalAtoms.Symbol

theorem toNat_sign (s : Symbol) : (s.raw % 2).toNat = s.raw.toNat % 2 := by
  simp [UInt32.toNat_mod]

theorem isNegated_iff {s : Symbol} : s.isNegated = true ↔ s.raw.toNat % 2 = 1 := by
  rw [isNegated, beq_iff_eq, ← UInt32.toNat_inj, toNat_sign]
  rfl

theorem isNegated_eq_false_iff {s : Symbol} : s.isNegated = false ↔ s.raw.toNat % 2 = 0 := by
  rw [← Bool.not_eq_true, isNegated_iff]
  omega

theorem ext_index {s t : Symbol} (hi : s.index = t.index) (hn : s.isNegated = t.isNegated) :
    s = t := by
  rw [eq_iff]
  simp only [index] at hi
  cases h : t.isNegated with
  | false =>
    have hs := isNegated_eq_false_iff.mp (hn.trans h)
    have ht := isNegated_eq_false_iff.mp h
    omega
  | true =>
    have hs := isNegated_iff.mp (hn.trans h)
    have ht := isNegated_iff.mp h
    omega

theorem index_lt (s : Symbol) : s.index < 2 ^ 31 := by
  have h := s.raw.toNat_lt
  simp only [index]
  omega

theorem toNat_positive (s : Symbol) : s.positive.raw.toNat = s.raw.toNat - s.raw.toNat % 2 := by
  have h : s.raw % 2 ≤ s.raw := by
    rw [UInt32.le_iff_toNat_le, toNat_sign]
    omega
  rw [positive, UInt32.toNat_sub_of_le _ _ h, toNat_sign]

@[simp] theorem index_positive (s : Symbol) : s.positive.index = s.index := by
  simp only [index, toNat_positive]
  omega

@[simp] theorem isNegated_positive (s : Symbol) : s.positive.isNegated = false := by
  rw [isNegated_eq_false_iff, toNat_positive]
  omega

theorem positive_eq_self {s : Symbol} (h : s.isNegated = false) : s.positive = s :=
  ext_index s.index_positive (s.isNegated_positive.trans h.symm)

theorem toNat_flip_of_positive {s : Symbol} (h : s.isNegated = false) :
    s.flip.raw.toNat = s.raw.toNat + 1 := by
  have hs := isNegated_eq_false_iff.mp h
  have hlt := s.raw.toNat_lt
  rw [flip, if_neg (by simp [h]), UInt32.toNat_add]
  exact Nat.mod_eq_of_lt (by simp only [UInt32.toNat_one]; omega)

theorem toNat_flip_of_negated {s : Symbol} (h : s.isNegated = true) :
    s.flip.raw.toNat = s.raw.toNat - 1 := by
  have hs := isNegated_iff.mp h
  have hle : (1 : UInt32) ≤ s.raw := by
    rw [UInt32.le_iff_toNat_le, UInt32.toNat_one]
    omega
  rw [flip, if_pos h, UInt32.toNat_sub_of_le _ _ hle, UInt32.toNat_one]

@[simp] theorem index_flip (s : Symbol) : s.flip.index = s.index := by
  cases h : s.isNegated with
  | false =>
    have hs := isNegated_eq_false_iff.mp h
    simp only [index, toNat_flip_of_positive h]
    omega
  | true =>
    have hs := isNegated_iff.mp h
    simp only [index, toNat_flip_of_negated h]
    omega

@[simp] theorem isNegated_flip (s : Symbol) : s.flip.isNegated = !s.isNegated := by
  cases h : s.isNegated with
  | false =>
    have hs := isNegated_eq_false_iff.mp h
    rw [Bool.not_false, isNegated_iff, toNat_flip_of_positive h]
    omega
  | true =>
    have hs := isNegated_iff.mp h
    rw [Bool.not_true, isNegated_eq_false_iff, toNat_flip_of_negated h]
    omega

@[simp] theorem flip_flip (s : Symbol) : s.flip.flip = s :=
  ext_index (by simp) (by simp)

@[simp] theorem positive_flip (s : Symbol) : s.flip.positive = s.positive :=
  ext_index (by simp) (by simp)

theorem positive_eq_iff {s t : Symbol} : s.positive = t.positive ↔ s.index = t.index := by
  constructor
  · intro h
    rw [← s.index_positive, h, t.index_positive]
  · exact fun h => ext_index (by simp [h]) (by simp)

theorem flip_ne (s : Symbol) : s.flip ≠ s := by
  intro h
  have hsign := s.isNegated_flip
  rw [h] at hsign
  cases hs : s.isNegated <;> simp [hs] at hsign

/-- Two handles share an index only when they are equal or complementary. -/
theorem eq_flip_of_index {s t : Symbol} (hi : s.index = t.index) (hne : s ≠ t) : t = s.flip := by
  have hsign : t.isNegated ≠ s.isNegated := fun h => hne (ext_index hi h.symm)
  exact ext_index (by simp [hi]) (by rw [isNegated_flip, Bool.eq_not.mpr hsign])

theorem toNat_ofIndex {i : Nat} (h : i < 2 ^ 31) : (ofIndex i).raw.toNat = 2 * i := by
  rw [ofIndex, UInt32.toNat_ofNat']
  omega

theorem index_ofIndex {i : Nat} (h : i < 2 ^ 31) : (ofIndex i).index = i := by
  rw [index, toNat_ofIndex h]
  omega

theorem isNegated_ofIndex (i : Nat) : (ofIndex i).isNegated = false := by
  rw [isNegated_eq_false_iff, ofIndex, UInt32.toNat_ofNat']
  omega

theorem ofIndex_index {s : Symbol} (h : s.isNegated = false) : ofIndex s.index = s :=
  ext_index (index_ofIndex s.index_lt) ((isNegated_ofIndex _).trans h.symm)

end ExternalAtoms.Symbol
