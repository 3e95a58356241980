import ExternalAtoms.Proofs.Symbol.Steps

/-! # Well-formed tables

In a well-formed table the look-up of handles and the arena agree, every name key leads to a text,
and the arguments of a function are positive handles that are older than the function. The agreement
needs that indices fit a handle, so the table holds at most `2 ^ 31` terms. The empty table is well
formed and every request keeps a table so, as long as it does not outgrow this bound.
-/
namespace ExternalAtoms

namespace SymbolTable
variable {table : SymbolTable}

structure WellFormed (table : SymbolTable) : Prop where
  bounded : table.size ≤ 2 ^ 31
  /-- The look-up finds exactly the positive handles of stored terms. -/
  handles_iff : ∀ {t : Term} {s : Symbol},
    table.handles[t]? = some s ↔ s.isNegated = false ∧ table.resolve? s = some t
  admissible : ∀ {i : Nat} {t : Term}, table.terms[i]? = some t → t.Admissible table.names i

namespace WellFormed

theorem admits (h : WellFormed table) : Admits table := fun _ _ => h.admissible

theorem empty : WellFormed .empty where
  bounded := by simp [SymbolTable.empty, size]
  handles_iff := by simp [SymbolTable.empty, resolve?]
  admissible := by simp [SymbolTable.empty]

theorem unique (h : WellFormed table) {s u : Symbol} {t : Term} (hs : s.isNegated = false)
    (hu : u.isNegated = false) (hst : table.resolve? s = some t)
    (hut : table.resolve? u = some t) : s = u :=
  Option.some.inj ((h.handles_iff.mpr ⟨hs, hst⟩).symm.trans (h.handles_iff.mpr ⟨hu, hut⟩))

theorem resolve?_ofIndex (h : WellFormed table) {i : Nat} {t : Term}
    (ht : table.terms[i]? = some t) : table.resolve? (.ofIndex i) = some t := by
  have hi := (Array.getElem?_eq_some_iff.mp ht).1
  have hb := h.bounded
  rw [size] at hb
  rwa [resolve?, Symbol.index_ofIndex (by omega)]

theorem terms_injective (h : WellFormed table) {i j : Nat} {t : Term}
    (hi : table.terms[i]? = some t) (hj : table.terms[j]? = some t) : i = j := by
  have hb := h.bounded
  rw [size] at hb
  have hli := (Array.getElem?_eq_some_iff.mp hi).1
  have hlj := (Array.getElem?_eq_some_iff.mp hj).1
  have he := congrArg Symbol.index (h.unique (Symbol.isNegated_ofIndex i)
    (Symbol.isNegated_ofIndex j) (h.resolve?_ofIndex hi) (h.resolve?_ofIndex hj))
  rwa [Symbol.index_ofIndex (by omega), Symbol.index_ofIndex (by omega)] at he

theorem intern_of_resolve? (h : WellFormed table) {s : Symbol} {t : Term}
    (hs : s.isNegated = false) (ht : table.resolve? s = some t) : table.intern t = (s, table) := by
  simp only [intern, h.handles_iff.mpr ⟨hs, ht⟩]

theorem handles_insert_iff (h : WellFormed table) {t : Term} (hnew : table.handles[t]? = none)
    (hb : table.size < 2 ^ 31) {u : Term} {s : Symbol} :
    (table.handles.insert t (.ofIndex table.size))[u]? = some s ↔
      s.isNegated = false ∧ (table.terms.push t)[s.index]? = some u := by
  rw [Std.ExtTreeMap.getElem?_insert, Array.getElem?_push]
  by_cases he : t = u
  · subst he
    have hfresh : s.isNegated = false → table.terms[s.index]? ≠ some t := by
      intro hs ht
      simp [h.handles_iff.mpr ⟨hs, ht⟩] at hnew
    rw [if_pos Std.ReflCmp.compare_self, Option.some.injEq]
    constructor
    · rintro rfl
      exact ⟨Symbol.isNegated_ofIndex _, if_pos (Symbol.index_ofIndex hb)⟩
    · rintro ⟨hs, ht⟩
      split at ht
      · next hi => rw [← Symbol.ofIndex_index hs, hi, size]
      · exact absurd ht (hfresh hs)
  · have hne : compare t u ≠ .eq := fun hc => he (Std.LawfulEqCmp.eq_of_compare hc)
    rw [if_neg hne, h.handles_iff, resolve?]
    refine and_congr_right fun _ => ?_
    split
    · next hi => simp [hi, he]
    · rfl

theorem intern (h : WellFormed table) {t : Term} (ht : t.Admissible table.names table.size)
    (hb : (table.intern t).2.size ≤ 2 ^ 31) : WellFormed (table.intern t).2 := by
  unfold SymbolTable.intern at hb ⊢
  split
  · exact h
  · next hnew =>
    simp only [hnew, size, Array.size_push] at hb
    refine ⟨by simpa [size] using hb, h.handles_insert_iff hnew hb, fun {i u} hu => ?_⟩
    rw [Array.getElem?_push] at hu
    split at hu
    · next hi =>
      obtain rfl := Option.some.inj hu
      subst hi
      exact ht
    · exact h.admissible hu

theorem isNegated_intern (h : WellFormed table) (t : Term) :
    (table.intern t).1.isNegated = false := by
  unfold SymbolTable.intern
  split
  · next s hs => exact (h.handles_iff.mp hs).1
  · exact Symbol.isNegated_ofIndex _

theorem resolve?_intern (h : WellFormed table) {t : Term}
    (hb : (table.intern t).2.size ≤ 2 ^ 31) :
    (table.intern t).2.resolve? (table.intern t).1 = some t := by
  unfold SymbolTable.intern at hb ⊢
  split
  · next s hs => exact (h.handles_iff.mp hs).2
  · next hnew =>
    simp only [hnew, size, Array.size_push] at hb
    rw [resolve?, Symbol.index_ofIndex hb]
    exact Array.getElem?_push_size

theorem internName (h : WellFormed table) (text : String) :
    WellFormed (table.internName text).2 where
  bounded := h.bounded
  handles_iff := h.handles_iff
  admissible ht := (h.admissible ht).mono (table.internName_extends text).names (Nat.le_refl _)

theorem grows {later : SymbolTable} (h : WellFormed table) (hg : Grows table later)
    (hb : later.size ≤ 2 ^ 31) : WellFormed later := by
  induction hg with
  | refl => exact h
  | name text hg ih => exact (ih hb).internName text
  | term hg ht ih => exact (ih (Nat.le_trans (intern_extends _ _).size_le hb)).intern ht hb

theorem reaches {later : SymbolTable} (h : WellFormed table) (hr : Reaches table later)
    (hb : later.size ≤ 2 ^ 31) : WellFormed later := h.grows (hr.grows h.admits) hb

end WellFormed

/-- The tables of a session: what a sequence of requests makes of the empty table. -/
theorem Reaches.wellFormed (hr : Reaches .empty table) (hb : table.size ≤ 2 ^ 31) :
    WellFormed table := WellFormed.empty.reaches hr hb

end SymbolTable

end ExternalAtoms
