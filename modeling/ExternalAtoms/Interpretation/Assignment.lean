import ExternalAtoms.Interpretation.Basic
import ExternalAtoms.Symbol.Store

/-! # Building interpretations

An assignment collects truth values for positive atoms. A later value of an atom replaces the
earlier one and leaves the atom at its place; what is no atom is refused and changes nothing. The
finished assignment is indexed by truth value and by predicate.
-/
namespace ExternalAtoms

open Std

structure Assignment where
  order : Array Symbol
  truths : ExtTreeMap Symbol Truth

namespace Assignment

def empty : Assignment := ⟨#[], ∅⟩

def truth (a : Assignment) (atom : Symbol) : Truth := (a.truths[atom]?).getD .false

def set (a : Assignment) (atom : Symbol) (truth : Truth) : Assignment where
  order := if atom ∈ a.truths then a.order else a.order.push atom
  truths := a.truths.insert atom truth

/-- The reply to a call, with the assignment and the symbol table after it. -/
structure Outcome where
  result : Except StoreError Unit
  assignment : Assignment
  table : SymbolTable

def assign (a : Assignment) (table : SymbolTable) (atom : Symbol) (truth : Truth) : Outcome :=
  if atom.isNegated then ⟨.error (.notAnAtom (table.describe atom)), a, table⟩
  else
    let asked := table.isAtom atom
    if asked.1 then ⟨.ok (), a.set atom truth, asked.2⟩
    else ⟨.error (.notAnAtom (asked.2.describe atom)), a, asked.2⟩

end Assignment

/-- A true atom joins the extension of its head. -/
def Interpretation.record (i : Interpretation) (table : SymbolTable) (atom : Symbol)
    (truth : Truth) : Interpretation × SymbolTable :=
  let listed := { i with atoms := i.atoms.push (atom, truth) }
  match truth with
  | .false => (listed, table)
  | .unknown => ({ listed with undecided := i.undecided + 1 }, table)
  | .true =>
    let asked := table.head atom
    match asked.1 with
    | none => (listed, asked.2)
    | some head =>
      let members := (i.extension head).insert (asked.2.arguments atom)
      ({ listed with extensions := i.extensions.insert head members }, asked.2)

def Assignment.build (a : Assignment) (table : SymbolTable) : Interpretation × SymbolTable :=
  a.order.foldl (fun built atom => built.1.record built.2 atom (a.truth atom))
    ({ Interpretation.empty with truths := a.truths }, table)

end ExternalAtoms
