import Std.Data.ExtTreeMap

/-! # Names

Predicates, function symbols, constants and quoted strings share one space of names. A table numbers
the texts in the order in which they are first interned: equal texts have one key, and a key leads
back to its text for as long as the table lives, because texts are only ever added.
-/
namespace ExternalAtoms

open Std

structure NameId where
  index : Nat
deriving DecidableEq, Repr

structure NameTable where
  texts : Array String
  ids : ExtTreeMap String NameId
  ids_eq_some_iff : ∀ (text : String) (id : NameId),
    ids[text]? = some id ↔ texts[id.index]? = some text

namespace NameTable

def empty : NameTable := ⟨#[], ∅, by simp⟩

def size (table : NameTable) : Nat := table.texts.size

def isEmpty (table : NameTable) : Bool := table.texts.isEmpty

def get? (table : NameTable) (text : String) : Option NameId := table.ids[text]?

def contains (table : NameTable) (text : String) : Bool := (table.get? text).isSome

/-- Keys of another table may lie beyond this one. -/
def resolve? (table : NameTable) (id : NameId) : Option String := table.texts[id.index]?

theorem get?_eq_some_iff {table : NameTable} {text : String} {id : NameId} :
    table.get? text = some id ↔ table.resolve? id = some text := table.ids_eq_some_iff text id

def push (table : NameTable) (text : String) (fresh : table.get? text = none) : NameTable where
  texts := table.texts.push text
  ids := table.ids.insert text ⟨table.texts.size⟩
  ids_eq_some_iff other id := by
    have known := table.ids_eq_some_iff other id
    rw [ExtTreeMap.getElem?_insert, Array.getElem?_push]
    by_cases equal : text = other
    · subst equal
      have absent : table.texts[id.index]? ≠ some text := fun held => by
        simp [get?, known.2 held] at fresh
      cases id
      grind
    · have different : compare text other ≠ .eq := fun h => equal (LawfulEqCmp.eq_of_compare h)
      grind

def intern (table : NameTable) (text : String) : NameId × NameTable :=
  match h : table.get? text with
  | some id => (id, table)
  | none => (⟨table.size⟩, table.push text h)

end NameTable

end ExternalAtoms
