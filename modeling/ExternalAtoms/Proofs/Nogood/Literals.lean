import ExternalAtoms.Nogood.Basic
import ExternalAtoms.Proofs.Symbol.Handle

/-! # The literals of a nogood

A nogood made from a list has exactly the literals of the list, and it is violated when all of them
hold. In ascending order a literal stands next to its complement, so comparing neighbours finds
every nogood that can never apply.
-/
namespace ExternalAtoms.Nogood

@[simp] theorem mem_insert {n : Nogood} {literal l : Symbol} :
    l ∈ (n.insert literal).literals ↔ l = literal ∨ l ∈ n.literals := mem_insertAscending

@[simp] theorem mem_ofList {literals : List Symbol} {l : Symbol} :
    l ∈ (ofList literals).literals ↔ l ∈ literals := by
  induction literals with
  | nil => simp [ofList, empty]
  | cons literal rest ih =>
    change l ∈ ((ofList rest).insert literal).literals ↔ _
    rw [mem_insert, ih, List.mem_cons]

/-- In an ascending list a complementary pair has neighbouring places. -/
theorem hasComplement_iff {literals : List Symbol} (h : literals.Pairwise (· < ·)) :
    hasComplement literals = true ↔ ∃ l ∈ literals, l.flip ∈ literals := by
  induction literals with
  | nil => simp [hasComplement]
  | cons first rest ih =>
    obtain ⟨hbelow, hrest⟩ := List.pairwise_cons.mp h
    cases rest with
    | nil => simp [hasComplement, Symbol.flip_ne]
    | cons second rest =>
      rw [hasComplement, Bool.or_eq_true, decide_eq_true_eq, ih hrest]
      constructor
      · rintro (hpositive | ⟨l, hl, hflip⟩)
        · have hne : first ≠ second := by
            rintro rfl
            exact absurd (Symbol.lt_iff.mp (hbelow first List.mem_cons_self)) (Nat.lt_irrefl _)
          rw [Symbol.eq_flip_of_index (Symbol.positive_eq_iff.mp hpositive) hne]
          exact ⟨first, by simp, by simp⟩
        · exact ⟨l, List.mem_cons_of_mem _ hl, List.mem_cons_of_mem _ hflip⟩
      · rintro ⟨l, hl, hflip⟩
        -- A complement of the first literal has the same index, and so has all that is between.
        have hfirst : ∀ m ∈ second :: rest, m.index = first.index →
            first.positive = second.positive := by
          intro m hm hindex
          have hle : second.raw.toNat ≤ m.raw.toNat := by
            rcases List.mem_cons.mp hm with rfl | hm
            · exact Nat.le_refl _
            · exact Nat.le_of_lt (Symbol.lt_iff.mp ((List.pairwise_cons.mp hrest).1 m hm))
          have hlt := Symbol.lt_iff.mp (hbelow second List.mem_cons_self)
          rw [Symbol.positive_eq_iff]
          simp only [Symbol.index] at hindex ⊢
          omega
        rcases List.mem_cons.mp hl with rfl | hl
        · rcases List.mem_cons.mp hflip with he | hflip
          · exact absurd he l.flip_ne
          · exact Or.inl (hfirst _ hflip l.index_flip)
        · rcases List.mem_cons.mp hflip with he | hflip
          · exact Or.inl (hfirst l hl (by rw [← he, l.index_flip]))
          · exact Or.inr ⟨l, hl, hflip⟩

/-- The nogood has literals, and none together with its complement. -/
def Proper (n : Nogood) : Prop := n.literals ≠ [] ∧ ∀ l ∈ n.literals, l.flip ∉ n.literals

theorem proper_iff {n : Nogood} : n.Proper ↔ n.isEmpty = false ∧ n.isTrivial = false := by
  rw [Proper, isEmpty, List.isEmpty_eq_false_iff, isTrivial, ← Bool.not_eq_true,
    hasComplement_iff n.ascending]
  simp

/-- The value that a valuation of the atoms gives to a literal. -/
def literalTruth (truthOf : Symbol → Truth) (l : Symbol) : Truth :=
  if l.isNegated then (truthOf l.positive).negate else truthOf l.positive

theorem statusFrom_cons {truthOf : Symbol → Truth} {status : Truth} {l : Symbol}
    {rest : List Symbol} :
    Id.run (statusFrom (fun atom => pure (truthOf atom)) status (l :: rest)) =
      match literalTruth truthOf l with
      | .false => .false
      | .unknown => Id.run (statusFrom (fun atom => pure (truthOf atom)) .unknown rest)
      | .true => Id.run (statusFrom (fun atom => pure (truthOf atom)) status rest) := by
  have hvalue : literalTruth truthOf l =
    if l.isNegated then (truthOf l.positive).negate else truthOf l.positive := rfl
  simp only [statusFrom, pure_bind]
  rw [← hvalue]
  cases literalTruth truthOf l <;> rfl

theorem statusFrom_eq_true_iff {truthOf : Symbol → Truth} {status : Truth}
    {literals : List Symbol} :
    Id.run (statusFrom (fun atom => pure (truthOf atom)) status literals) = .true ↔
      status = .true ∧ ∀ l ∈ literals, literalTruth truthOf l = .true := by
  induction literals generalizing status with
  | nil => simp [statusFrom]
  | cons l rest ih =>
    rw [statusFrom_cons, List.forall_mem_cons]
    cases literalTruth truthOf l with
    | «true» => simp [ih]
    | «false» => simp
    | unknown => simp [ih]

theorem status_eq_true_iff {n : Nogood} {truthOf : Symbol → Truth} :
    n.status truthOf = .true ↔ ∀ l ∈ n.literals, literalTruth truthOf l = .true := by
  have hfrom := @statusFrom_eq_true_iff truthOf .true n.literals
  simpa [status, statusM] using hfrom

theorem premise_of_status {n : Nogood} {P : Symbol → Prop} {output : Symbol}
    (hn : ∀ l, l ∈ n.literals ↔ P l ∨ l = output.flip) (hpositive : output.isNegated = false)
    {truthOf : Symbol → Truth} (h : n.status truthOf = .true) :
    (∀ l, P l → literalTruth truthOf l = .true) ∧ truthOf output = .false := by
  rw [status_eq_true_iff] at h
  refine ⟨fun l hl => h l ((hn l).mpr (Or.inl hl)), ?_⟩
  have hflip := h output.flip ((hn _).mpr (Or.inr rfl))
  rw [literalTruth, Symbol.isNegated_flip, hpositive, output.positive_flip,
    Symbol.positive_eq_self hpositive] at hflip
  revert hflip
  cases truthOf output <;> decide

end ExternalAtoms.Nogood
