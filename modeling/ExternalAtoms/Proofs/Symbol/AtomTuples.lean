import ExternalAtoms.Proofs.Symbol.Content
import ExternalAtoms.Proofs.Symbol.Head

/-! # Atoms and their tuples

An atom is its predicate constant and its arguments, and a tuple that is accepted as an atom is the
tuple of that atom. So taking an atom apart and storing its parts leads back to its positive handle,
and taking apart what was stored for a tuple gives back the tuple. Negation moves between the two
handles of an atom and keeps everything else.
-/
namespace ExternalAtoms.SymbolTable
variable {table later : SymbolTable} {a l p s : Symbol} {args elements : List Symbol}

theorem apply_of_isNamed (hw : WellFormed table) {name : NameId} {t : Term}
    (ha : a.isNegated = false) (ht : table.resolve? a = some t) (hnamed : t.IsNamed name) :
    table.apply name (table.arguments a) = (.ok a, table) := by
  cases t with
  | integer value => exact hnamed.elim
  | constant n =>
    obtain rfl : n = name := hnamed
    simp only [arguments, ht, SymbolTable.apply, List.isEmpty_nil, if_true,
      hw.intern_of_resolve? ha ht]
  | function n args =>
    obtain rfl : n = name := hnamed
    have hne : args.isEmpty = false := by
      rw [List.isEmpty_eq_false_iff]
      exact (hw.admissible ht).2.1
    simp only [arguments, ht, SymbolTable.apply, hne, Bool.false_eq_true, if_false,
      hw.checkArguments_of_function ht, hw.intern_of_resolve? ha ht]

namespace AtomOf

theorem atom_eq (h : table.AtomOf p args a) (hw : WellFormed table) :
    table.atom (p :: args) = (.ok a, table) := by
  obtain ⟨ha, ⟨hp, name, t, hconstant, hname, ht, hnamed⟩, rfl⟩ := h
  have hhead : table.headName p = .ok name := headName_ok_iff.mpr ⟨hp, hconstant, hname⟩
  simp only [SymbolTable.atom, hhead, apply_of_isNamed hw ha ht hnamed]

theorem tuple_eq (h : table.AtomOf p args a) (hw : WellFormed table) :
    table.tuple a = (some (p :: args), table) := by
  obtain ⟨ha, ⟨hp, name, t, hconstant, hname, ht, hnamed⟩, hargs⟩ := h
  cases t with
  | integer value => exact hnamed.elim
  | constant n =>
    obtain rfl : n = name := hnamed
    obtain rfl : p = a := hw.unique hp ha hconstant ht
    obtain rfl : args = [] := by rw [← hargs, arguments, ht]
    simp only [tuple, ht, Symbol.positive_eq_self ha]
  | function n args' =>
    obtain rfl : n = name := hnamed
    obtain rfl : args' = args := by rw [← hargs, arguments, ht]
    simp only [tuple, ht, hw.intern_of_resolve? hp hconstant]

theorem head_eq (h : table.AtomOf p args a) (hw : WellFormed table) :
    table.head a = (some p, table) := h.2.1.headOf hw

end AtomOf

theorem atomOf_tuple (hw : WellFormed table) (hs : (table.isAtom s).1 = true)
    (hb : (table.tuple s).2.size ≤ 2 ^ 31) :
    ∃ p args, (table.tuple s).1 = some (p :: args) ∧
      (table.tuple s).2.AtomOf p args s.positive := by
  obtain ⟨name, t, ht, hnamed, hname⟩ := isAtom_iff.mp hs
  have hpositive : table.resolve? s.positive = some t := by rwa [resolve?, s.index_positive]
  cases t with
  | integer value => exact hnamed.elim
  | constant n =>
    obtain rfl : n = name := hnamed
    have htuple : table.tuple s = (some [s.positive], table) := by simp only [tuple, ht]
    rw [htuple]
    exact ⟨s.positive, [], rfl, s.isNegated_positive,
      ⟨s.isNegated_positive, n, _, hpositive, hname, hpositive, rfl⟩, by rw [arguments, hpositive]⟩
  | function n args =>
    obtain rfl : n = name := hnamed
    have htuple : table.tuple s = (some ((table.intern (.constant n)).1 :: args),
        (table.intern (.constant n)).2) := by simp only [tuple, ht]
    rw [htuple] at hb ⊢
    have hl := table.intern_extends (.constant n)
    exact ⟨_, args, rfl, s.isNegated_positive,
      ⟨hw.isNegated_intern _, n, _, hw.resolve?_intern hb, hl.isPredicateName hname,
        hl.resolve hpositive, rfl⟩, by rw [arguments, hl.resolve hpositive]⟩

section Negation

theorem negate_ok_iff : (table.negate s).1 = .ok l ↔
    table.isKnown s = true ∧ (table.isAtom s).1 = true ∧ l = s.flip := by
  unfold negate
  split
  · next hknown =>
    dsimp only
    split
    · next hatom => simp [hknown, hatom, eq_comm]
    · next hatom => simp [hatom]
  · next hknown => simp [hknown]

theorem tuple_flip (table : SymbolTable) (s : Symbol) : table.tuple s.flip = table.tuple s := by
  simp only [tuple, resolve?, s.index_flip, s.positive_flip]

theorem head_flip (table : SymbolTable) (s : Symbol) : table.head s.flip = table.head s := by
  simp only [head, resolve?, s.index_flip, s.positive_flip]

theorem arguments_flip (table : SymbolTable) (s : Symbol) :
    table.arguments s.flip = table.arguments s := by
  simp only [arguments, resolve?, s.index_flip]

end Negation

/-- Atoms and accepted tuples correspond one to one, in this and in every later table, and exactly
the atoms have a negation, which differs from them in the sign only. -/
theorem atoms_correspond_to_tuples (hr : Reaches .empty table) :
    (∀ s later, (table.isAtom s).1 = true → Reaches (table.tuple s).2 later →
      later.size ≤ 2 ^ 31 → ∃ elements, (table.tuple s).1 = some elements ∧
        later.atom elements = (.ok s.positive, later)) ∧
    (∀ elements a later, (table.atom elements).1 = .ok a → Reaches (table.atom elements).2 later →
      later.size ≤ 2 ^ 31 → later.tuple a = (some elements, later) ∧
        ∃ p args, elements = p :: args ∧ later.head a = (some p, later) ∧
          later.arguments a = args) ∧
    ∀ s, ((∃ l, (table.negate s).1 = .ok l) ↔
        table.isKnown s = true ∧ (table.isAtom s).1 = true) ∧
      ∀ l later, (table.negate s).1 = .ok l → Reaches (table.negate s).2 later →
        l.index = s.index ∧ l.isNegated = !s.isNegated ∧ later.tuple l = later.tuple s ∧
          later.head l = later.head s ∧ later.arguments l = later.arguments s ∧
          (later.negate l).1 = .ok s := by
  refine ⟨fun s later hs hlater hb => ?_, fun elements a later ha hlater hb => ?_,
    fun s => ⟨?_, ?_⟩⟩
  · have hreaches := run_reaches (.tuple s) table
    have hafter : (table.tuple s).2.size ≤ 2 ^ 31 := Nat.le_trans hlater.size_le hb
    have hw := hr.wellFormed (Nat.le_trans hreaches.size_le hafter)
    have hwlater := (hw.reaches hreaches hafter).reaches hlater hb
    obtain ⟨p, args, htuple, hparts⟩ := atomOf_tuple hw hs hafter
    exact ⟨p :: args, htuple, (hparts.extend hlater.toExtends).atom_eq hwlater⟩
  · have hreaches := run_reaches (.atom elements) table
    have hafter : (table.atom elements).2.size ≤ 2 ^ 31 := Nat.le_trans hlater.size_le hb
    have hw := hr.wellFormed (Nat.le_trans hreaches.size_le hafter)
    have hwlater := (hw.reaches hreaches hafter).reaches hlater hb
    cases elements with
    | nil => cases ha
    | cons p args =>
      have hparts := (hw.atomOf ha hafter).extend hlater.toExtends
      exact ⟨hparts.tuple_eq hwlater, p, args, rfl, hparts.head_eq hwlater, hparts.2.2⟩
  · simp only [negate_ok_iff, exists_and_left, exists_eq, and_true]
  · intro l later hl hlater
    obtain ⟨-, hatom, rfl⟩ := negate_ok_iff.mp hl
    have hextends := (run_reaches (.negate s) table).toExtends.trans hlater.toExtends
    have hflip : (later.isAtom s.flip).1 = true := by
      rw [isAtom_flip]
      exact hextends.isAtom hatom
    exact ⟨s.index_flip, s.isNegated_flip, later.tuple_flip s, later.head_flip s,
      later.arguments_flip s, negate_ok_iff.mpr ⟨known_of_isAtom hflip, hflip, s.flip_flip.symm⟩⟩

/-- The atom `f(a)`, stored as a function, so that its predicate constant is not stored yet. -/
def headlessAtom : SymbolTable := empty.runAll [.constant "a", .function "f" [⟨0⟩]]

/-- Taking the negated atom apart stores `f`, and its parts lead back to the positive atom. -/
theorem atoms_correspond_to_tuples_headlessAtom :
    Reaches .empty headlessAtom ∧ (headlessAtom.negate ⟨2⟩).1 = .ok ⟨3⟩ ∧
      (headlessAtom.tuple ⟨3⟩).1 = some [⟨4⟩, ⟨0⟩] ∧
      (headlessAtom.tuple ⟨3⟩).2.atom [⟨4⟩, ⟨0⟩] = (.ok ⟨2⟩, (headlessAtom.tuple ⟨3⟩).2) ∧
      ((headlessAtom.negate ⟨2⟩).2.negate ⟨3⟩).1 = .ok ⟨2⟩ ∧
      ((headlessAtom.tuple ⟨3⟩).2.atom [⟨4⟩, ⟨0⟩]).2.tuple ⟨2⟩ =
        (some [⟨4⟩, ⟨0⟩], ((headlessAtom.tuple ⟨3⟩).2.atom [⟨4⟩, ⟨0⟩]).2) := by
  have hr : Reaches .empty headlessAtom := runAll_reaches _ _
  have hb : (headlessAtom.tuple ⟨3⟩).2.size ≤ 2 ^ 31 := by decide
  have hparts : (headlessAtom.tuple ⟨3⟩).1 = some [⟨4⟩, ⟨0⟩] := by rfl
  have hnegated : (headlessAtom.negate ⟨2⟩).1 = .ok ⟨3⟩ := by rfl
  obtain ⟨hatoms, -, hsigns⟩ := atoms_correspond_to_tuples hr
  obtain ⟨elements, helements, hfound⟩ := hatoms ⟨3⟩ _ (by decide) .refl hb
  obtain rfl := Option.some.inj (hparts.symm.trans helements)
  obtain ⟨-, -, -, -, -, hback⟩ := (hsigns ⟨2⟩).2 ⟨3⟩ _ hnegated .refl
  obtain ⟨-, htuples, -⟩ := atoms_correspond_to_tuples (hr.trans (run_reaches (.tuple ⟨3⟩) _))
  have hstored : ((headlessAtom.tuple ⟨3⟩).2.atom [⟨4⟩, ⟨0⟩]).1 = .ok ⟨2⟩ := by
    exact congrArg Prod.fst hfound
  obtain ⟨htuple, -⟩ := htuples [⟨4⟩, ⟨0⟩] ⟨2⟩ _ hstored .refl (by decide)
  exact ⟨hr, hnegated, hparts, hfound, hback, htuple⟩

end ExternalAtoms.SymbolTable
