/-! # Symbols

A symbol is a 32-bit handle of a stored term. Its lowest bit says whether the literal is negated and
the other bits are the term's index, so a literal and its complement differ in one bit and are
neighbours in the order of handles.
-/
namespace ExternalAtoms

open Std

structure Symbol where
  raw : UInt32
deriving DecidableEq, Repr

namespace Symbol

/-- The positive handle of a term; only the lowest 31 bits of the index are kept. -/
def ofIndex (index : Nat) : Symbol := ⟨UInt32.ofNat (2 * index)⟩

def index (s : Symbol) : Nat := s.raw.toNat / 2

def isNegated (s : Symbol) : Bool := s.raw % 2 == 1

def positive (s : Symbol) : Symbol := ⟨s.raw - s.raw % 2⟩

/-- The complementary literal. -/
def flip (s : Symbol) : Symbol := if s.isNegated then ⟨s.raw - 1⟩ else ⟨s.raw + 1⟩

def label (s : Symbol) : String := (if s.isNegated then "-#" else "#") ++ Nat.repr s.index

instance : Ord Symbol := ⟨compareOn raw⟩

instance : TransOrd Symbol := inferInstanceAs (TransCmp (compareOn raw))

instance : LawfulEqOrd Symbol where
  eq_of_compare {s t} h := by
    have : s.raw = t.raw := LawfulEqOrd.eq_of_compare (α := UInt32) h
    cases s; cases t; simp_all

instance : LT Symbol := ⟨fun s t => s.raw < t.raw⟩

instance (s t : Symbol) : Decidable (s < t) := inferInstanceAs (Decidable (s.raw < t.raw))

theorem lt_iff {s t : Symbol} : s < t ↔ s.raw.toNat < t.raw.toNat := UInt32.lt_iff_toNat_lt

theorem eq_iff {s t : Symbol} : s = t ↔ s.raw.toNat = t.raw.toNat := by
  cases s; cases t; simp only [mk.injEq, UInt32.toNat_inj]

theorem lt_trans {s t u : Symbol} (hst : s < t) (htu : t < u) : s < u :=
  lt_iff.2 (Nat.lt_trans (lt_iff.1 hst) (lt_iff.1 htu))

theorem lt_of_not_lt_of_ne {s t : Symbol} (hlt : ¬s < t) (hne : s ≠ t) : t < s := by
  rw [lt_iff] at *; rw [Ne, eq_iff] at hne; omega

end Symbol

end ExternalAtoms
