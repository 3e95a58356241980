import ExternalAtoms.Proofs.Evaluation.Admission
import ExternalAtoms.Proofs.Evaluation.Constraints
import ExternalAtoms.Proofs.Symbol.AtomTuples

/-! # What a refusal leaves behind

An application is refused for an argument that is negated or unknown, an atom also for its head, and
a negation for what is no atom. All of them are examined before a term is stored, so a refusal adds
none. A nogood is examined literal by literal, and asking for the head of one literal may store it
before the next is looked at: what is left of a refused nogood are heads of its own literals. For
the same reason a handle that is unknown when the nogood is submitted is accepted when it happens to
become the handle of such a head.
-/
namespace ExternalAtoms
open SymbolTable

namespace SymbolTable
variable {table old new later : SymbolTable} {p s : Symbol} {args elements literals : List Symbol}
  {name : NameId} {e : StoreError}

section Storing

theorem apply_error_iff :
    (∃ e, (table.apply name args).1 = .error e) ↔ ∃ arg ∈ args, ¬table.Usable arg := by
  have hchecked : table.checkArguments args = .ok () ↔ ∀ arg ∈ args, table.Usable arg :=
    checkArguments_ok_iff
  rw [exists_error_iff, ← not_iff_not, not_not]
  push Not
  rw [← hchecked]
  cases args with
  | nil => simp [SymbolTable.apply, checkArguments]
  | cons arg rest =>
    simp only [SymbolTable.apply, List.isEmpty_cons, Bool.false_eq_true, if_false]
    cases table.checkArguments (arg :: rest) <;> simp

theorem apply_of_error (h : (table.apply name args).1 = .error e) :
    (table.apply name args).2 = table := by
  unfold SymbolTable.apply at h ⊢
  split at h
  · cases h
  · next hne =>
    rw [if_neg hne]
    split at h
    · rfl
    · cases h

theorem function_error_iff {name : String} : (∃ e, (table.function name args).1 = .error e) ↔
    args ≠ [] ∧ ∃ arg ∈ args, ¬table.Usable arg := by
  have hnamed : (∃ e, (table.function name args).1 = .error e) ↔
      ∃ arg ∈ args, ¬table.Usable arg := apply_error_iff
  rw [hnamed]
  refine ⟨fun h => ⟨?_, h⟩, And.right⟩
  rintro rfl
  simp at h

/-- The name of a refused application stays. -/
theorem function_of_error {name : String} (h : (table.function name args).1 = .error e) :
    (table.function name args).2 = { table with names := (table.names.intern name).2 } :=
  apply_of_error h

/-- The symbol can head atoms. -/
def CanHead (table : SymbolTable) (p : Symbol) : Prop :=
  p.isNegated = false ∧ table.NamesPredicate p

theorem canHead_iff : table.CanHead p ↔ ∃ name, table.headName p = .ok name := by
  simp only [CanHead, ← isPredicateConstant_iff_namesPredicate, headName_ok_iff]
  constructor
  · rintro ⟨hp, hconstant⟩
    exact headName_of_isPredicateConstant hp hconstant |>.imp fun name => headName_ok_iff.mp
  · rintro ⟨name, hp, ht, hname⟩
    exact ⟨hp, by simpa only [isPredicateConstant, ht] using hname⟩

theorem atom_error_iff : (∃ e, (table.atom elements).1 = .error e) ↔
    elements = [] ∨ ∃ p args, elements = p :: args ∧
      (¬table.CanHead p ∨ ∃ arg ∈ args, ¬table.Usable arg) := by
  cases elements with
  | nil => simp [SymbolTable.atom]
  | cons p args =>
    have hparts : (∃ q rest, p :: args = q :: rest ∧
        (¬table.CanHead q ∨ ∃ arg ∈ rest, ¬table.Usable arg)) ↔
          (¬table.CanHead p ∨ ∃ arg ∈ args, ¬table.Usable arg) := by
      constructor
      · rintro ⟨q, rest, he, h⟩
        cases he
        exact h
      · exact fun h => ⟨p, args, rfl, h⟩
    rw [hparts, canHead_iff]
    cases hhead : table.headName p with
    | error e => simp [SymbolTable.atom, hhead]
    | ok name => simpa [SymbolTable.atom, hhead] using apply_error_iff

theorem atom_of_error (h : (table.atom elements).1 = .error e) :
    (table.atom elements).2 = table := by
  unfold SymbolTable.atom at h ⊢
  split
  · rfl
  · next p args =>
    dsimp only at h
    split
    · rfl
    · next name hname =>
      simp only [hname] at h
      exact apply_of_error h

theorem negate_error_iff : (∃ e, (table.negate s).1 = .error e) ↔
    table.isKnown s = false ∨ (table.isAtom s).1 = false := by
  rw [exists_error_iff]
  simp only [negate_ok_iff, exists_and_left, exists_eq, and_true, not_and_or, Bool.not_eq_true]

theorem negate_of_error (h : (table.negate s).1 = .error e) : (table.negate s).2 = table := by
  unfold negate at h ⊢
  split
  · next hknown =>
    rw [if_pos hknown] at h
    dsimp only at h ⊢
    split at h
    · cases h
    · next hatom =>
      rw [if_neg hatom]
      exact isAtom_of_not_atom (Bool.eq_false_iff.mpr hatom)
  · rfl

end Storing

section Submitting

/-- The new table has the names of the old one, and its new terms are the heads of these literals.
-/
structure AddsHeads (old new : SymbolTable) (literals : List Symbol) : Prop where
  names : new.names = old.names
  terms : ∃ added, new.terms.toList = old.terms.toList ++ added ∧
    ∀ t ∈ added, ∃ l ∈ literals, ∃ name args, old.resolve? l = some (.function name args) ∧
      old.isPredicateName name = true ∧ t = .constant name

namespace AddsHeads

theorem refl (table : SymbolTable) (literals : List Symbol) : AddsHeads table table literals :=
  ⟨rfl, [], by simp, by simp⟩

theorem resolve?_function (h : AddsHeads old new literals)
    (hs : new.resolve? s = some (.function name args)) :
    old.resolve? s = some (.function name args) := by
  obtain ⟨added, hterms, hheads⟩ := h.terms
  rw [resolve?, ← Array.getElem?_toList, hterms] at hs
  rw [resolve?, ← Array.getElem?_toList]
  rcases Nat.lt_or_ge s.index old.terms.toList.length with hlt | hge
  · rwa [List.getElem?_append_left hlt] at hs
  · rw [List.getElem?_append_right hge] at hs
    obtain ⟨l, hl, other, args', hr, hname, hconstant⟩ := hheads _ (List.mem_of_getElem? hs)
    cases hconstant

theorem trans {more : List Symbol} (h : AddsHeads old new literals) (h' : AddsHeads new later more)
    (hmore : ∀ l ∈ more, l ∈ elements) (hliterals : ∀ l ∈ literals, l ∈ elements) :
    AddsHeads old later elements := by
  obtain ⟨added, hterms, hheads⟩ := h.terms
  obtain ⟨added', hterms', hheads'⟩ := h'.terms
  refine ⟨h'.names.trans h.names, added ++ added', by rw [hterms', hterms, List.append_assoc], ?_⟩
  intro t ht
  rcases List.mem_append.mp ht with ht | ht
  · obtain ⟨l, hl, name, args, hr⟩ := hheads t ht
    exact ⟨l, hliterals l hl, name, args, hr⟩
  · obtain ⟨l, hl, name, args, hr, hname, rfl⟩ := hheads' t ht
    rw [isPredicateName, h.names] at hname
    exact ⟨l, hmore l hl, name, args, h.resolve?_function hr, hname, rfl⟩

theorem isAtom (table : SymbolTable) (l : Symbol) : AddsHeads table (table.isAtom l).2 [l] := by
  unfold SymbolTable.isAtom head
  dsimp only
  split
  · split <;> exact .refl table [l]
  · next name args hr =>
    split
    · next hname =>
      dsimp only
      unfold intern
      split
      · exact .refl table [l]
      · refine ⟨rfl, [.constant name], Array.toList_push, ?_⟩
        intro t ht
        exact ⟨l, by simp, name, args, hr, hname, List.mem_singleton.mp ht⟩
    · exact .refl table [l]
  · exact .refl table [l]

theorem checkLiterals (table : SymbolTable) (literals : List Symbol) :
    AddsHeads table (table.checkLiterals literals).2 literals := by
  induction literals generalizing table with
  | nil => exact .refl table []
  | cons l rest ih =>
    unfold SymbolTable.checkLiterals
    split
    · dsimp only
      split
      · exact (isAtom table l).trans (ih _) (fun _ => List.mem_cons_of_mem l) (by simp)
      · exact (isAtom table l).trans (.refl _ []) (by simp) (by simp)
    · exact .refl table _

/-- What is an atom now was one before, or it is the head of one of these literals. -/
theorem isAtom_cases (h : AddsHeads old new literals) (hl : Extends old new)
    (hs : (new.isAtom s).1 = true) : (old.isAtom s).1 = true ∨
      old.isKnown s = false ∧
        ∃ m ∈ literals, (old.isAtom m).1 = true ∧ new.HeadedBy m s.positive := by
  obtain ⟨name, t, ht, hnamed, hname⟩ := isAtom_iff.mp hs
  by_cases hknown : old.isKnown s = true
  · obtain ⟨u, hu⟩ := isKnown_iff.mp hknown
    obtain rfl := Option.some.inj ((hl.resolve hu).symm.trans ht)
    rw [isPredicateName, h.names] at hname
    exact Or.inl (isAtom_iff.mpr ⟨name, u, hu, hnamed, hname⟩)
  · refine Or.inr ⟨Bool.eq_false_iff.mpr hknown, ?_⟩
    obtain ⟨added, hterms, hheads⟩ := h.terms
    have hadded : t ∈ added := by
      have hge : old.terms.toList.length ≤ s.index := by
        rw [isKnown, decide_eq_true_eq, size, ← Array.length_toList] at hknown
        exact Nat.le_of_not_lt hknown
      rw [resolve?, ← Array.getElem?_toList, hterms, List.getElem?_append_right hge] at ht
      exact List.mem_of_getElem? ht
    obtain ⟨m, hm, other, args, hr, hidentifier, rfl⟩ := hheads t hadded
    obtain rfl : other = name := hnamed
    have hpositive : new.resolve? s.positive = some (.constant other) := by
      rwa [resolve?, s.index_positive]
    exact ⟨m, hm, isAtom_iff.mpr ⟨other, _, hr, rfl, hidentifier⟩,
      s.isNegated_positive, other, _, hpositive, hname, hl.resolve hr, rfl⟩

end AddsHeads

theorem checkLiterals_ok_iff : (table.checkLiterals literals).1 = .ok () ↔
    ∀ l ∈ literals, ((table.checkLiterals literals).2.isAtom l).1 = true := by
  refine ⟨checkLiterals_ok, fun h => ?_⟩
  induction literals generalizing table with
  | nil => rfl
  | cons l rest ih =>
    have hl := h l List.mem_cons_self
    unfold SymbolTable.checkLiterals at h hl ⊢
    split
    · next hknown =>
      rw [if_pos hknown] at h hl
      dsimp only at h hl ⊢
      split
      · next hatom =>
        rw [if_pos hatom] at h
        exact ih fun m hm => h m (List.mem_cons_of_mem l hm)
      · next hatom =>
        -- nothing was stored for `l`, so it is no atom of the table that is left
        rw [if_neg hatom] at hl
        dsimp only at hl
        rw [isAtom_of_not_atom (Bool.eq_false_iff.mpr hatom)] at hl
        exact absurd hl hatom
    · next hknown =>
      rw [if_neg hknown] at hl
      exact absurd (known_of_isAtom hl) hknown

theorem isAtom_of_headedBy_positive {m : Symbol} (h : table.HeadedBy m s.positive) :
    (table.isAtom s).1 = true := by
  obtain ⟨-, name, -, hconstant, hname, -, -⟩ := h
  rw [resolve?, s.index_positive] at hconstant
  exact isAtom_iff.mpr ⟨name, _, hconstant, rfl, hname⟩

/-- The handle was not in use, and now it is, with either sign, that of the head of an atom that
stood in the nogood. -/
def BecomesHead (old new : SymbolTable) (n : Nogood) (l : Symbol) : Prop :=
  old.isKnown l = false ∧
    ∃ m ∈ n.literals, (old.isAtom m).1 = true ∧ new.HeadedBy m l.positive

theorem checkNogood_ok_iff {n : Nogood} : (table.checkNogood n).1 = .ok () ↔
    n.literals ≠ [] ∧ ∀ l ∈ n.literals,
      (table.isAtom l).1 = true ∨ table.BecomesHead (table.checkNogood n).2 n l := by
  unfold checkNogood
  split
  · next hempty =>
    rw [Nogood.isEmpty, List.isEmpty_iff] at hempty
    simp [hempty]
  · next hne =>
    rw [Nogood.isEmpty, List.isEmpty_iff] at hne
    have hadds := AddsHeads.checkLiterals table n.literals
    have hextends := (table.checkLiterals_reaches n.literals).toExtends
    rw [checkLiterals_ok_iff, ne_eq, and_iff_right hne]
    refine forall₂_congr fun l _ => ⟨hadds.isAtom_cases hextends, ?_⟩
    rintro (hatom | ⟨-, m, -, -, hhead⟩)
    · exact hextends.isAtom hatom
    · exact isAtom_of_headedBy_positive hhead

theorem AddsHeads.checkNogood (table : SymbolTable) (n : Nogood) :
    AddsHeads table (table.checkNogood n).2 n.literals := by
  unfold SymbolTable.checkNogood
  split
  · exact .refl table _
  · exact .checkLiterals table _

end Submitting

end SymbolTable

namespace Workspace
variable {w : Workspace} {n : Nogood} {e : StoreError}

theorem learn_error_iff : (∃ e, (w.learn n).1 = .error e) ↔
    n.literals = [] ∨ ∃ l ∈ n.literals,
      (w.table.isKnown l = false ∨ (w.table.isAtom l).1 = false) ∧
        ¬w.table.BecomesHead (w.learn n).2.table n l := by
  have htable : (w.learn n).2.table = (w.table.checkNogood n).2 := by
    unfold learn
    dsimp only
    split <;> rfl
  have hok : (∃ e, (w.learn n).1 = .error e) ↔ ¬(w.table.checkNogood n).1 = .ok () := by
    unfold learn
    dsimp only
    cases (w.table.checkNogood n).1 <;> simp
  have hunknown : ∀ l, (w.table.isKnown l = false ∨ (w.table.isAtom l).1 = false) ↔
      ¬(w.table.isAtom l).1 = true := by
    intro l
    rw [Bool.not_eq_true, or_iff_right_iff_imp]
    exact fun h => Bool.eq_false_iff.mpr fun hatom => by simp [known_of_isAtom hatom] at h
  simp only [hok, htable, checkNogood_ok_iff, hunknown]
  push Not
  rw [or_iff_not_imp_left]

theorem learn_of_error (h : (w.learn n).1 = .error e) :
    (w.learn n).2.pending = w.pending ∧
      AddsHeads w.table (w.learn n).2.table n.literals := by
  unfold learn at h ⊢
  dsimp only at h ⊢
  split at h
  · exact ⟨rfl, .checkNogood w.table n⟩
  · cases h

end Workspace

namespace Invocation
variable {call : Invocation} {table : SymbolTable} {t : Tuple} {e : StoreError}

theorem storeOutputAtom_error_iff : (∃ e, (call.storeOutputAtom table t).1 = .error e) ↔
    t.length ≠ call.signature.outputArity ∨
      ∃ e, (table.function (replacementName call.signature.predicate (call.input ++ t).length)
        (call.input ++ t)).1 = .error e := by
  unfold storeOutputAtom
  split
  · next hlength => simp [hlength]
  · next hlength => simp [hlength]

theorem storeOutputAtom_of_error (h : (call.storeOutputAtom table t).1 = .error e) :
    (call.storeOutputAtom table t).2.terms = table.terms ∧
      (call.storeOutputAtom table t).2.handles = table.handles := by
  unfold storeOutputAtom at h ⊢
  split at h
  · next hlength =>
    rw [if_pos hlength, function_of_error h]
    exact ⟨rfl, rfl⟩
  · next hlength =>
    rw [if_neg hlength]
    exact ⟨rfl, rfl⟩

end Invocation

namespace SymbolTable

/-- When the store refuses, and what is left then: the name of a function, and of a nogood heads of
its own literals. What is not known cannot be submitted, except as the handle that such a head
takes before the literal is looked at. -/
theorem refused_leave_no_term (table : SymbolTable) :
    (∀ name args, ((∃ e, (table.function name args).1 = .error e) ↔
        args ≠ [] ∧ ∃ arg ∈ args, ¬table.Usable arg) ∧
      ∀ e, (table.function name args).1 = .error e →
        (table.function name args).2 = { table with names := (table.names.intern name).2 }) ∧
    (∀ elements, ((∃ e, (table.atom elements).1 = .error e) ↔
        elements = [] ∨ ∃ p args, elements = p :: args ∧
          (¬table.CanHead p ∨ ∃ arg ∈ args, ¬table.Usable arg)) ∧
      ∀ e, (table.atom elements).1 = .error e → (table.atom elements).2 = table) ∧
    (∀ s, ((∃ e, (table.negate s).1 = .error e) ↔
        table.isKnown s = false ∨ (table.isAtom s).1 = false) ∧
      ∀ e, (table.negate s).1 = .error e → (table.negate s).2 = table) ∧
    (∀ (call : Invocation) (t : Tuple), ((∃ e, (call.storeOutputAtom table t).1 = .error e) ↔
        t.length ≠ call.signature.outputArity ∨
          ∃ e, (table.function (replacementName call.signature.predicate (call.input ++ t).length)
            (call.input ++ t)).1 = .error e) ∧
      ∀ e, (call.storeOutputAtom table t).1 = .error e →
        (call.storeOutputAtom table t).2.terms = table.terms ∧
          (call.storeOutputAtom table t).2.handles = table.handles) ∧
    ∀ (pending : Array Nogood) (n : Nogood),
      ((∃ e, (Workspace.learn ⟨table, pending⟩ n).1 = .error e) ↔
        n.literals = [] ∨ ∃ l ∈ n.literals,
          (table.isKnown l = false ∨ (table.isAtom l).1 = false) ∧
            ¬table.BecomesHead (Workspace.learn ⟨table, pending⟩ n).2.table n l) ∧
      ∀ e, (Workspace.learn ⟨table, pending⟩ n).1 = .error e →
        (Workspace.learn ⟨table, pending⟩ n).2.pending = pending ∧
          table.AddsHeads (Workspace.learn ⟨table, pending⟩ n).2.table n.literals := by
  exact ⟨fun name args => ⟨function_error_iff, fun e => function_of_error⟩,
    fun elements => ⟨atom_error_iff, fun e => atom_of_error⟩,
    fun s => ⟨negate_error_iff, fun e => negate_of_error⟩,
    fun call t => ⟨Invocation.storeOutputAtom_error_iff,
      fun e => Invocation.storeOutputAtom_of_error⟩,
    fun pending n => ⟨Workspace.learn_error_iff, fun e => Workspace.learn_of_error⟩⟩

/-- After `f(a)` was looked at, `f` is stored, and then the unknown handle is refused. -/
theorem refused_leave_no_term_headlessAtom :
    let learned := Workspace.learn ⟨headlessAtom, #[]⟩ (.ofList [⟨2⟩, ⟨40⟩])
    learned.1 = .error (.unknownSymbol 20) ∧ learned.2.pending = #[] ∧
      learned.2.table.size = headlessAtom.size + 1 ∧
      headlessAtom.AddsHeads learned.2.table [⟨2⟩, ⟨40⟩] := by
  intro learned
  have hrefused : learned.1 = .error (.unknownSymbol 20) := by rfl
  obtain ⟨-, -, -, -, hlearn⟩ := refused_leave_no_term headlessAtom
  obtain ⟨hpending, hheads⟩ := (hlearn #[] (.ofList [⟨2⟩, ⟨40⟩])).2 _ hrefused
  exact ⟨hrefused, hpending, by rfl, hheads⟩

/-- The handle that no term has yet is that of `f` when it is looked at, so the nogood of it and of
`f(a)` is accepted. -/
theorem unknown_literal_accepted :
    headlessAtom.isKnown ⟨4⟩ = false ∧
      ¬((∃ e, (Workspace.learn ⟨headlessAtom, #[]⟩ (.ofList [⟨2⟩, ⟨4⟩])).1 = .error e) ↔
        (Nogood.ofList [⟨2⟩, ⟨4⟩]).literals = [] ∨ ∃ l ∈ (Nogood.ofList [⟨2⟩, ⟨4⟩]).literals,
          headlessAtom.isKnown l = false ∨ (headlessAtom.isAtom l).1 = false) := by
  have haccepted : (Workspace.learn ⟨headlessAtom, #[]⟩ (.ofList [⟨2⟩, ⟨4⟩])).1 = .ok () := by
    rfl
  have hunknown : headlessAtom.isKnown ⟨4⟩ = false := by decide
  refine ⟨hunknown, fun h => ?_⟩
  obtain ⟨e, he⟩ := h.mpr (Or.inr ⟨⟨4⟩, by decide, Or.inl hunknown⟩)
  rw [haccepted] at he
  cases he

end SymbolTable

end ExternalAtoms
