import ExternalAtoms.Proofs.Nogood.Literals
import Mathlib.Data.List.Sort

/-! # What a nogood says

A nogood is its set of literals, in whatever order and however often they were given. Under a
valuation of the atoms it is true when all of its literals hold, false when the complement of one
holds, and open otherwise, so a decided status outlives every refinement of the valuation. The
nogoods that no valuation makes true are those with a literal and its complement.
-/
namespace ExternalAtoms

namespace Symbol

instance : Std.Irrefl (fun s t : Symbol => s < t) := ⟨fun _ h => Nat.lt_irrefl _ (lt_iff.mp h)⟩

instance : Std.Antisymm (fun s t : Symbol => s < t) :=
  ⟨fun _ _ h h' => absurd (lt_iff.mp h') (Nat.lt_asymm (lt_iff.mp h))⟩

end Symbol

namespace Nogood
variable {n m : Nogood} {literals : List Symbol} {l : Symbol} {truthOf finer : Symbol → Truth}

theorem eq_iff_mem : n = m ↔ ∀ l, l ∈ n.literals ↔ l ∈ m.literals := by
  constructor
  · rintro rfl l
    exact Iff.rfl
  · intro h
    have hliterals : n.literals = m.literals := n.ascending.eq_of_mem_iff m.ascending h
    cases n
    cases m
    simpa using hliterals

/-- Giving up past the place of a literal misses nothing in an ascending list. -/
theorem findAscending_iff (h : literals.Pairwise (· < ·)) :
    findAscending l literals = true ↔ l ∈ literals := by
  induction literals with
  | nil => simp [findAscending]
  | cons first rest ih =>
    obtain ⟨hbelow, hrest⟩ := List.pairwise_cons.mp h
    rw [findAscending, List.mem_cons]
    split
    · next hless =>
      rw [ih hrest, or_iff_right]
      rintro rfl
      exact Std.Irrefl.irrefl l hless
    · next hnotLess =>
      rw [decide_eq_true_eq, eq_comm, or_iff_left_of_imp]
      exact fun hl => absurd (hbelow l hl) hnotLess

theorem contains_iff : n.contains l = true ↔ l ∈ n.literals := findAscending_iff n.ascending

/-- A positive literal holds when its atom is true, a negated one when its atom is false. -/
def Holds (truthOf : Symbol → Truth) (l : Symbol) : Prop :=
  truthOf l.positive = if l.isNegated then .false else .true

/-- The atom is decided against the literal. -/
def Fails (truthOf : Symbol → Truth) (l : Symbol) : Prop :=
  truthOf l.positive = if l.isNegated then .true else .false

theorem holds_flip_iff : Holds truthOf l.flip ↔ Fails truthOf l := by
  cases h : l.isNegated <;> simp [Holds, Fails, h]

theorem Holds.not_fails (h : Holds truthOf l) : ¬Fails truthOf l := by
  intro hf
  cases hn : l.isNegated <;> simp_all [Holds, Fails]

theorem literalTruth_eq_true_iff : literalTruth truthOf l = .true ↔ Holds truthOf l := by
  unfold literalTruth Holds
  cases l.isNegated <;> cases truthOf l.positive <;> decide

theorem literalTruth_eq_false_iff : literalTruth truthOf l = .false ↔ Fails truthOf l := by
  unfold literalTruth Fails
  cases l.isNegated <;> cases truthOf l.positive <;> decide

theorem statusFrom_eq_false_iff {status : Truth} (h : status ≠ .false) :
    Id.run (statusFrom (fun atom => pure (truthOf atom)) status literals) = .false ↔
      ∃ l ∈ literals, literalTruth truthOf l = .false := by
  induction literals generalizing status with
  | nil => simpa [statusFrom] using h
  | cons l rest ih =>
    rw [statusFrom_cons, List.exists_mem_cons_iff]
    cases literalTruth truthOf l with
    | «true» => simp [ih h]
    | «false» => simp
    | unknown => simp [ih]

theorem status_true_iff : n.status truthOf = .true ↔ ∀ l ∈ n.literals, Holds truthOf l := by
  simp only [status_eq_true_iff, literalTruth_eq_true_iff]

theorem status_false_iff : n.status truthOf = .false ↔ ∃ l ∈ n.literals, Fails truthOf l := by
  simp only [← literalTruth_eq_false_iff]
  exact statusFrom_eq_false_iff (by decide)

/-- The finer valuation keeps the atoms that are decided. -/
def Refines (truthOf finer : Symbol → Truth) : Prop :=
  ∀ atom, atom.isNegated = false → truthOf atom ≠ .unknown → finer atom = truthOf atom

theorem Refines.holds (h : Refines truthOf finer) (hl : Holds truthOf l) : Holds finer l := by
  have hdecided : truthOf l.positive ≠ .unknown := by
    rw [hl]
    cases l.isNegated <;> decide
  rw [Holds, h _ l.isNegated_positive hdecided]
  exact hl

theorem Refines.status (h : Refines truthOf finer) (hn : n.status truthOf ≠ .unknown) :
    n.status finer = n.status truthOf := by
  cases hs : n.status truthOf with
  | «true» =>
    rw [status_true_iff] at hs ⊢
    exact fun l hl => h.holds (hs l hl)
  | «false» =>
    rw [status_false_iff] at hs ⊢
    obtain ⟨l, hl, hfails⟩ := hs
    exact ⟨l, hl, holds_flip_iff.mp (h.holds (holds_flip_iff.mpr hfails))⟩
  | unknown => exact absurd hs hn

/-- Exactly the positive literals of the list are true, and no atom is undecided. -/
def supposing (literals : List Symbol) (atom : Symbol) : Truth := .ofBool (decide (atom ∈ literals))

theorem holds_supposing (hl : l ∈ literals) (hflip : l.flip ∉ literals) :
    Holds (supposing literals) l := by
  cases hn : l.isNegated with
  | false => simp [Holds, supposing, hn, Symbol.positive_eq_self hn, hl, Truth.ofBool]
  | true =>
    -- the atom of a negated literal is its complement
    have hpositive : l.positive = l.flip := by
      rw [← l.positive_flip, Symbol.positive_eq_self (by rw [l.isNegated_flip, hn]; rfl)]
    simp [Holds, supposing, hn, hpositive, hflip, Truth.ofBool]

theorem isTrivial_iff : n.isTrivial = true ↔ ∃ l ∈ n.literals, l.flip ∈ n.literals :=
  hasComplement_iff n.ascending

theorem isTrivial_iff_status : n.isTrivial = true ↔ ∀ truthOf, n.status truthOf ≠ .true := by
  rw [isTrivial_iff]
  constructor
  · rintro ⟨l, hl, hflip⟩ truthOf hs
    rw [status_true_iff] at hs
    exact (hs l hl).not_fails (holds_flip_iff.mp (hs _ hflip))
  · intro h
    by_contra hnone
    refine h (supposing n.literals) (status_true_iff.mpr fun l hl => ?_)
    exact holds_supposing hl fun hflip => hnone ⟨l, hl, hflip⟩

/-- A nogood made from a list is the set of its literals, and its status is their conjunction in
three-valued logic. -/
theorem canonical_literal_set (literals others : List Symbol) :
    let n := ofList literals
    (n = ofList others ↔ ∀ l, l ∈ literals ↔ l ∈ others) ∧
      n.literals.Pairwise (· < ·) ∧ (∀ l, l ∈ n.literals ↔ l ∈ literals) ∧
      (∀ l, n.contains l = true ↔ l ∈ literals) ∧
      (∀ truthOf, (n.status truthOf = .true ↔ ∀ l ∈ literals, Holds truthOf l) ∧
        (n.status truthOf = .false ↔ ∃ l ∈ literals, Fails truthOf l) ∧
        (n.status truthOf = .unknown ↔
          (∃ l ∈ literals, ¬Holds truthOf l) ∧ ∀ l ∈ literals, ¬Fails truthOf l) ∧
        ∀ finer, Refines truthOf finer → n.status truthOf ≠ .unknown →
          n.status finer = n.status truthOf) ∧
      (n.isTrivial = true ↔ ∃ l ∈ literals, l.flip ∈ literals) ∧
      (n.isTrivial = true ↔ ∀ truthOf, n.status truthOf ≠ .true) := by
  intro n
  have hmem : ∀ l, l ∈ n.literals ↔ l ∈ literals := fun l => mem_ofList
  have htrue : ∀ truthOf, n.status truthOf = .true ↔ ∀ l ∈ literals, Holds truthOf l := by
    simp only [status_true_iff, hmem, implies_true]
  have hfalse : ∀ truthOf, n.status truthOf = .false ↔ ∃ l ∈ literals, Fails truthOf l := by
    simp only [status_false_iff, hmem, implies_true]
  refine ⟨?_, n.ascending, hmem, fun l => contains_iff.trans (hmem l), fun truthOf => ?_, ?_,
    isTrivial_iff_status⟩
  · simp only [eq_iff_mem, hmem, mem_ofList]
  · refine ⟨htrue truthOf, hfalse truthOf, ?_, fun finer h => h.status⟩
    have hthird : n.status truthOf = .unknown ↔
        n.status truthOf ≠ .true ∧ n.status truthOf ≠ .false := by
      cases n.status truthOf <;> decide
    rw [hthird, Ne, Ne, htrue, hfalse]
    simp only [not_forall, not_exists, not_and, exists_prop]
  · simp only [isTrivial_iff, hmem]

/-- Deciding the first atom leaves the nogood false, since the second literal fails already. -/
theorem canonical_literal_set_decided :
    ∃ truthOf finer, Refines truthOf finer ∧ truthOf ⟨2⟩ = .unknown ∧ finer ⟨2⟩ = .true ∧
      (ofList [⟨5⟩, ⟨2⟩, ⟨5⟩]).status finer = .false := by
  let truthOf : Symbol → Truth := fun atom => if atom = ⟨4⟩ then .true else .unknown
  let finer : Symbol → Truth := fun _ => .true
  have hrefines : Refines truthOf finer := by
    intro atom _ hdecided
    by_cases h : atom = ⟨4⟩ <;> simp_all [truthOf, finer]
  have hstatus : (ofList [⟨5⟩, ⟨2⟩, ⟨5⟩]).status truthOf = .false := by decide
  have hkept := ((canonical_literal_set [⟨5⟩, ⟨2⟩, ⟨5⟩] []).2.2.2.2.1 truthOf).2.2.2 finer hrefines
    (by rw [hstatus]; decide)
  exact ⟨truthOf, finer, hrefines, by decide, rfl, hkept.trans hstatus⟩

end Nogood

end ExternalAtoms
