import ExternalAtoms.Proofs.Symbol.Growth
import ExternalAtoms.Proofs.Symbol.Handle

/-! # Requests as steps of interning

Whatever a request does to a table, it interns names and terms, and only terms whose name has a text
and whose arguments are stored. So a property of tables that interning keeps is kept by all
requests. One of them needs no bound on the size of the table: the handle that the look-up has for a
term stays the handle of that term.
-/
namespace ExternalAtoms

theorem NameTable.resolve?_injective {names : NameTable} {a b : NameId} {text : String}
    (ha : names.resolve? a = some text) (hb : names.resolve? b = some text) : a = b := by
  rw [← get?_eq_some_iff] at ha hb
  exact Option.some.inj (ha.symm.trans hb)

theorem NameTable.resolve?_intern (names : NameTable) (text : String) :
    (names.intern text).2.resolve? (names.intern text).1 = some text := by
  unfold intern
  split
  · next id h => exact get?_eq_some_iff.mp h
  · simp [resolve?, push, size]

theorem NameTable.intern_of_resolve? {names : NameTable} {text : String} {id : NameId}
    (h : names.resolve? id = some text) : names.intern text = (id, names) := by
  have hget := get?_eq_some_iff.mpr h
  unfold intern
  split
  · next found hfound => rw [Option.some.inj (hfound.symm.trans hget)]
  · next hnone => simp [hget] at hnone

/-- What a term may look like at a place of the arena: its key leads to a text, and the arguments of
a function are positive and stand before that place. -/
def Term.Admissible (names : NameTable) (place : Nat) : Term → Prop
  | .constant name => ∃ text, names.resolve? name = some text
  | .integer _ => True
  | .function name args =>
    (∃ text, names.resolve? name = some text) ∧ args ≠ [] ∧
      ∀ arg ∈ args, arg.isNegated = false ∧ arg.index < place

theorem Term.Admissible.mono {names names' : NameTable} {place place' : Nat} {t : Term}
    (h : t.Admissible names place) (hn : names.texts.toList <+: names'.texts.toList)
    (hp : place ≤ place') : t.Admissible names' place' := by
  cases t with
  | constant name =>
    obtain ⟨text, ht⟩ := h
    exact ⟨text, getElem?_of_prefix hn ht⟩
  | integer value => trivial
  | function name args =>
    obtain ⟨⟨text, ht⟩, hne, hargs⟩ := h
    refine ⟨⟨text, getElem?_of_prefix hn ht⟩, hne, fun arg ha => ?_⟩
    obtain ⟨hpos, hlt⟩ := hargs arg ha
    exact ⟨hpos, by omega⟩

namespace SymbolTable
variable {table old new later : SymbolTable}

/-- Every stored term is one that its place admits. -/
def Admits (table : SymbolTable) : Prop :=
  ∀ (i : Nat) (t : Term), table.terms[i]? = some t → t.Admissible table.names i

theorem Admits.name_of_constant (h : Admits table) {s : Symbol} {name : NameId}
    (hs : table.resolve? s = some (.constant name)) :
    ∃ text, table.names.resolve? name = some text := h _ _ hs

theorem Admits.name_of_function (h : Admits table) {s : Symbol} {name : NameId}
    {args : List Symbol} (hs : table.resolve? s = some (.function name args)) :
    ∃ text, table.names.resolve? name = some text := (h _ _ hs).1

/-- The new table comes from the old one by interning. -/
inductive Grows (old : SymbolTable) : SymbolTable → Prop
  | refl : Grows old old
  | name {new : SymbolTable} (text : String) (h : Grows old new) :
      Grows old (new.internName text).2
  | term {new : SymbolTable} {t : Term} (h : Grows old new)
      (ht : t.Admissible new.names new.size) : Grows old (new.intern t).2

namespace Grows

theorem trans (h : Grows old new) (h' : Grows new later) : Grows old later := by
  induction h' with
  | refl => exact h
  | name text _ ih => exact .name text ih
  | term _ ht ih => exact .term ih ht

theorem toExtends (h : Grows old new) : Extends old new := by
  induction h with
  | refl => exact .refl old
  | name text _ ih => exact ih.trans (internName_extends _ text)
  | term _ _ ih => exact ih.trans (intern_extends _ _)

theorem admits (h : Grows old new) (ha : Admits old) : Admits new := by
  induction h with
  | refl => exact ha
  | @name new text _ ih =>
    exact fun i t ht => (ih i t ht).mono (new.internName_extends text).names (Nat.le_refl i)
  | @term new t _ ht ih =>
    unfold SymbolTable.intern
    split
    · exact ih
    · intro i u hu
      rw [Array.getElem?_push] at hu
      split at hu
      · next hi =>
        obtain rfl := Option.some.inj hu
        subst hi
        exact ht
      · exact ih i u hu

/-- What the look-up has for a term it has ever after, however large the table gets. -/
theorem handles (h : Grows old new) {t : Term} {s : Symbol} (hs : old.handles[t]? = some s) :
    new.handles[t]? = some s := by
  induction h with
  | refl => exact hs
  | name text _ ih => exact ih
  | @term new u _ _ ih =>
    unfold SymbolTable.intern
    split
    · exact ih
    · next hnone =>
      have hne : compare u t ≠ .eq := by
        intro he
        rw [Std.LawfulEqCmp.eq_of_compare he, ih] at hnone
        cases hnone
      rw [Std.ExtTreeMap.getElem?_insert, if_neg hne]
      exact ih

end Grows

theorem handles_intern (table : SymbolTable) (t : Term) :
    (table.intern t).2.handles[t]? = some (table.intern t).1 := by
  unfold intern
  split
  · next s hs => exact hs
  · exact Std.ExtTreeMap.getElem?_insert_self

theorem intern_of_handles {t : Term} {s : Symbol} (h : table.handles[t]? = some s) :
    table.intern t = (s, table) := by
  unfold intern
  rw [h]

theorem checkArguments_ok_iff {args : List Symbol} :
    table.checkArguments args = .ok () ↔
      ∀ arg ∈ args, arg.isNegated = false ∧ table.isKnown arg = true := by
  induction args with
  | nil => simp [checkArguments]
  | cons arg rest ih =>
    rw [checkArguments]
    split
    · next hn => simp [hn]
    · next hn =>
      split
      · next hk => simp [ih, hn, hk]
      · next hk => simp [hk]

theorem headName_ok_iff {head : Symbol} {name : NameId} :
    table.headName head = .ok name ↔
      head.isNegated = false ∧ table.resolve? head = some (.constant name) ∧
        table.isPredicateName name = true := by
  unfold headName
  cases hr : table.resolve? head with
  | none => simp
  | some t =>
    cases t with
    | integer value => simp
    | function id args => simp
    | constant id =>
      simp only [Option.some.injEq, Term.constant.injEq]
      split
      · next hp =>
        simp only [Bool.and_eq_true, Bool.not_eq_true'] at hp
        rw [Except.ok.injEq]
        constructor
        · rintro rfl
          exact ⟨hp.1, rfl, hp.2⟩
        · exact fun h => h.2.1
      · next hp =>
        simp only [Bool.and_eq_true, Bool.not_eq_true', not_and] at hp
        simp only [reduceCtorEq, false_iff]
        rintro ⟨hn, rfl, hi⟩
        exact hp hn hi

theorem function_admissible {name : NameId} {args : List Symbol}
    (hn : ∃ text, table.names.resolve? name = some text) (hne : args ≠ [])
    (hc : table.checkArguments args = .ok ()) :
    (Term.function name args).Admissible table.names table.size := by
  refine ⟨hn, hne, fun arg ha => ?_⟩
  obtain ⟨hp, hk⟩ := checkArguments_ok_iff.mp hc arg ha
  exact ⟨hp, by simpa [isKnown] using hk⟩

theorem constant_grows (table : SymbolTable) (text : String) :
    Grows table (table.constant text).2 :=
  .term (.name text .refl) ⟨text, NameTable.resolve?_intern _ _⟩

theorem apply_grows {name : NameId} (hn : ∃ text, table.names.resolve? name = some text)
    (args : List Symbol) : Grows table (table.apply name args).2 := by
  unfold apply
  split
  · exact .term .refl hn
  · next hne =>
    split
    · exact .refl
    · next hc => exact .term .refl (function_admissible hn (by simpa using hne) hc)

theorem function_grows (table : SymbolTable) (name : String) (args : List Symbol) :
    Grows table (table.function name args).2 :=
  (Grows.name name .refl).trans (apply_grows ⟨name, NameTable.resolve?_intern _ _⟩ args)

section Admits
variable (h : Admits table)
include h

theorem atom_grows (elements : List Symbol) : Grows table (table.atom elements).2 := by
  cases elements with
  | nil => exact .refl
  | cons head args =>
    simp only [atom]
    cases hn : table.headName head with
    | error e => exact .refl
    | ok name => exact apply_grows (h.name_of_constant (headName_ok_iff.mp hn).2.1) args

theorem tuple_grows (s : Symbol) : Grows table (table.tuple s).2 := by
  unfold tuple
  split
  · exact .refl
  · next hr => exact .term .refl (h.name_of_function hr)
  · exact .refl

theorem head_grows (s : Symbol) : Grows table (table.head s).2 := by
  unfold head
  split
  · split <;> exact .refl
  · next hr =>
    split
    · exact .term .refl (h.name_of_function hr)
    · exact .refl
  · exact .refl

theorem negate_grows (s : Symbol) : Grows table (table.negate s).2 := by
  unfold negate
  split
  · dsimp only
    split <;> exact head_grows h s
  · exact .refl

theorem run_grows (request : StoreRequest) : Grows table (request.run table).2 := by
  cases request with
  | constant text => exact table.constant_grows text
  | string text => exact table.constant_grows _
  | integer value => exact .term .refl trivial
  | function name args => exact table.function_grows name args
  | atom elements => exact atom_grows h elements
  | tuple s => exact tuple_grows h s
  | head s => exact head_grows h s
  | isAtom s => exact head_grows h s
  | negate s => exact negate_grows h s

theorem Reaches.grows (hr : Reaches table later) : Grows table later := by
  induction hr with
  | refl => exact .refl
  | store request _ ih => exact ih.trans (run_grows (ih.admits h) request)

end Admits

/-- The tables of a session admit all of their terms. -/
theorem Reaches.admits (hr : Reaches .empty table) : Admits table := by
  have hempty : Admits .empty := by simp [Admits, empty]
  exact (Reaches.grows hempty hr).admits hempty

end SymbolTable

end ExternalAtoms
