import ExternalAtoms.Symbol.Request

/-! # Growth of a symbol table

A table extends another when it has the same terms and names at the same places and possibly more
after them. Every request extends the table it runs on, whether it is answered or refused, and so
does every sequence of requests. What a handle or a key meant before, it means afterwards.
-/
namespace ExternalAtoms

theorem getElem?_of_prefix {α : Type} {xs ys : Array α} (h : xs.toList <+: ys.toList) {i : Nat}
    {a : α} (ha : xs[i]? = some a) : ys[i]? = some a := by
  rw [← Array.getElem?_toList] at ha ⊢
  obtain ⟨hi, rfl⟩ := List.getElem?_eq_some_iff.mp ha
  exact List.prefix_iff_getElem?.mp h i hi

namespace SymbolTable

/-- All terms and names of the old table stand at the same places in the new one. -/
structure Extends (old new : SymbolTable) : Prop where
  terms : old.terms.toList <+: new.terms.toList
  names : old.names.texts.toList <+: new.names.texts.toList

namespace Extends
variable {old new later : SymbolTable}

theorem refl (table : SymbolTable) : Extends table table :=
  ⟨List.prefix_refl _, List.prefix_refl _⟩

theorem trans (h : Extends old new) (h' : Extends new later) : Extends old later :=
  ⟨h.terms.trans h'.terms, h.names.trans h'.names⟩

theorem size_le (h : Extends old new) : old.size ≤ new.size := by
  simpa [size] using h.terms.length_le

theorem term (h : Extends old new) {i : Nat} {t : Term} (ht : old.terms[i]? = some t) :
    new.terms[i]? = some t := getElem?_of_prefix h.terms ht

/-- A known handle stands for the same term ever after. -/
theorem resolve (h : Extends old new) {s : Symbol} {t : Term} (ht : old.resolve? s = some t) :
    new.resolve? s = some t := h.term ht

theorem name (h : Extends old new) {id : NameId} {text : String}
    (ht : old.names.resolve? id = some text) : new.names.resolve? id = some text :=
  getElem?_of_prefix h.names ht

end Extends

theorem isKnown_iff {table : SymbolTable} {s : Symbol} :
    table.isKnown s = true ↔ ∃ t, table.resolve? s = some t := by
  rw [isKnown, decide_eq_true_eq, size]
  constructor
  · intro h
    exact ⟨table.terms[s.index], Array.getElem?_eq_getElem h⟩
  · rintro ⟨t, ht⟩
    exact (Array.getElem?_eq_some_iff.mp ht).1

theorem resolve?_eq_none_iff {table : SymbolTable} {s : Symbol} :
    table.resolve? s = none ↔ table.isKnown s = false := by
  rw [← Bool.not_eq_true, isKnown_iff, Option.eq_none_iff_forall_ne_some, not_exists]

theorem Extends.isKnown {table later : SymbolTable} {s : Symbol} (h : Extends table later)
    (hs : table.isKnown s = true) : later.isKnown s = true := by
  obtain ⟨t, ht⟩ := isKnown_iff.mp hs
  exact isKnown_iff.mpr ⟨t, h.resolve ht⟩

theorem intern_extends (table : SymbolTable) (term : Term) :
    Extends table (table.intern term).2 := by
  unfold intern
  split
  · exact .refl table
  · exact ⟨by simp, List.prefix_refl _⟩

theorem internName_extends (table : SymbolTable) (text : String) :
    Extends table (table.internName text).2 := by
  refine ⟨List.prefix_refl _, ?_⟩
  simp only [internName, NameTable.intern]
  split
  · exact List.prefix_refl _
  · simp [NameTable.push]

theorem constant_extends (table : SymbolTable) (text : String) :
    Extends table (table.constant text).2 :=
  (table.internName_extends text).trans (intern_extends _ _)

theorem apply_extends (table : SymbolTable) (name : NameId) (args : List Symbol) :
    Extends table (table.apply name args).2 := by
  unfold apply
  split
  · exact table.intern_extends _
  · split
    · exact .refl table
    · exact table.intern_extends _

theorem function_extends (table : SymbolTable) (name : String) (args : List Symbol) :
    Extends table (table.function name args).2 :=
  (table.internName_extends name).trans (apply_extends _ _ _)

theorem atom_extends (table : SymbolTable) (elements : List Symbol) :
    Extends table (table.atom elements).2 := by
  unfold atom
  split
  · exact .refl table
  · split
    · exact .refl table
    · exact table.apply_extends _ _

theorem tuple_extends (table : SymbolTable) (s : Symbol) : Extends table (table.tuple s).2 := by
  unfold tuple
  split
  · exact .refl table
  · exact table.intern_extends _
  · exact .refl table

theorem head_extends (table : SymbolTable) (s : Symbol) : Extends table (table.head s).2 := by
  unfold head
  split
  · split <;> exact .refl table
  · split
    · exact table.intern_extends _
    · exact .refl table
  · exact .refl table

theorem isAtom_extends (table : SymbolTable) (s : Symbol) : Extends table (table.isAtom s).2 :=
  table.head_extends s

theorem negate_extends (table : SymbolTable) (s : Symbol) : Extends table (table.negate s).2 := by
  unfold negate
  split
  · dsimp only
    split <;> exact table.isAtom_extends s
  · exact .refl table

/-- A request only appends, even one that is refused. -/
theorem run_extends (request : StoreRequest) (table : SymbolTable) :
    Extends table (request.run table).2 := by
  cases request with
  | constant text => exact table.constant_extends text
  | string text => exact table.constant_extends _
  | integer value => exact table.intern_extends _
  | function name args => exact table.function_extends name args
  | atom elements => exact table.atom_extends elements
  | tuple s => exact table.tuple_extends s
  | head s => exact table.head_extends s
  | isAtom s => exact table.isAtom_extends s
  | negate s => exact table.negate_extends s

/-- A sequence of requests, each answered or refused, leads from the old table to the new one. -/
inductive Reaches (old : SymbolTable) : SymbolTable → Prop
  | refl : Reaches old old
  | store {new : SymbolTable} (request : StoreRequest) (h : Reaches old new) :
      Reaches old (request.run new).2

namespace Reaches
variable {old new later : SymbolTable}

theorem trans (h : Reaches old new) (h' : Reaches new later) : Reaches old later := by
  induction h' with
  | refl => exact h
  | store request _ ih => exact .store request ih

theorem toExtends (h : Reaches old new) : Extends old new := by
  induction h with
  | refl => exact .refl old
  | store request _ ih => exact ih.trans (run_extends request _)

theorem size_le (h : Reaches old new) : old.size ≤ new.size := h.toExtends.size_le

end Reaches

theorem run_reaches (request : StoreRequest) (table : SymbolTable) :
    Reaches table (request.run table).2 := .store request .refl

def runAll (table : SymbolTable) (requests : List StoreRequest) : SymbolTable :=
  requests.foldl (fun table request => (request.run table).2) table

theorem runAll_reaches (table : SymbolTable) (requests : List StoreRequest) :
    Reaches table (table.runAll requests) := by
  induction requests generalizing table with
  | nil => exact .refl
  | cons request rest ih => exact (run_reaches request table).trans (ih _)

end SymbolTable

end ExternalAtoms
