import ExternalAtoms.Symbol.Basic
import ExternalAtoms.Truth

/-! # Nogoods

A nogood is a finite set of literals that must never hold together. Its literals are kept in
strictly ascending order of their handles, so nogoods over the same literals are equal however they
were built, and a literal stands next to its complement.
-/
namespace ExternalAtoms

open Std

structure Nogood where
  literals : List Symbol
  ascending : literals.Pairwise (· < ·)
deriving DecidableEq

namespace Nogood

/-- Puts a literal at its place in an ascending list, unless it is there already. -/
def insertAscending (literal : Symbol) : List Symbol → List Symbol
  | [] => [literal]
  | other :: rest =>
    if literal < other then literal :: other :: rest
    else if literal = other then other :: rest
    else other :: insertAscending literal rest

theorem mem_insertAscending {literal other : Symbol} {literals : List Symbol} :
    other ∈ insertAscending literal literals ↔ other = literal ∨ other ∈ literals := by
  fun_induction insertAscending literal literals <;> grind

theorem pairwise_insertAscending {literal : Symbol} {literals : List Symbol}
    (h : literals.Pairwise (· < ·)) : (insertAscending literal literals).Pairwise (· < ·) := by
  induction literals with
  | nil => simp [insertAscending]
  | cons other rest ih =>
    obtain ⟨below, ascending⟩ := List.pairwise_cons.1 h
    unfold insertAscending
    split
    · next less =>
      refine List.pairwise_cons.2 ⟨fun later member => ?_, h⟩
      rcases List.mem_cons.1 member with rfl | member
      · exact less
      · exact Symbol.lt_trans less (below later member)
    · next notLess =>
      split
      · exact h
      · next different =>
        refine List.pairwise_cons.2 ⟨fun later member => ?_, ih ascending⟩
        rcases mem_insertAscending.1 member with rfl | member
        · exact Symbol.lt_of_not_lt_of_ne notLess different
        · exact below later member

def empty : Nogood := ⟨[], .nil⟩

def insert (n : Nogood) (literal : Symbol) : Nogood :=
  ⟨insertAscending literal n.literals, pairwise_insertAscending n.ascending⟩

def ofList (literals : List Symbol) : Nogood :=
  literals.foldr (fun literal n => n.insert literal) empty

def size (n : Nogood) : Nat := n.literals.length

def isEmpty (n : Nogood) : Bool := n.literals.isEmpty

/-- Looks for a literal in an ascending list and gives up once past its place. -/
def findAscending (literal : Symbol) : List Symbol → Bool
  | [] => false
  | other :: rest =>
    if other < literal then findAscending literal rest else decide (other = literal)

def contains (n : Nogood) (literal : Symbol) : Bool := findAscending literal n.literals

def hasComplement : List Symbol → Bool
  | first :: second :: rest =>
    decide (first.positive = second.positive) || hasComplement (second :: rest)
  | _ => false

/-- Whether a literal stands together with its complement, so that the nogood never applies. -/
def isTrivial (n : Nogood) : Bool := hasComplement n.literals

variable {m : Type → Type} [Monad m]

/-- Asks for the atoms in turn and stops at the first literal that is false. -/
def statusFrom (truthOf : Symbol → m Truth) (status : Truth) : List Symbol → m Truth
  | [] => pure status
  | literal :: rest => do
    let atom ← truthOf literal.positive
    match if literal.isNegated then atom.negate else atom with
    | .false => pure .false
    | .unknown => statusFrom truthOf .unknown rest
    | .true => statusFrom truthOf status rest

def statusM (n : Nogood) (truthOf : Symbol → m Truth) : m Truth :=
  statusFrom truthOf .true n.literals

/-- Whether all literals hold: false if one is false, else unknown if one is undecided. -/
def status (n : Nogood) (truthOf : Symbol → Truth) : Truth :=
  Id.run (n.statusM fun atom => pure (truthOf atom))

instance : Ord Nogood := ⟨compareOn literals⟩

instance : TransOrd Nogood := inferInstanceAs (TransCmp (compareOn literals))

instance : LawfulEqOrd Nogood where
  eq_of_compare {n k} h := by
    have : n.literals = k.literals := LawfulEqOrd.eq_of_compare (α := List Symbol) h
    cases n; cases k; simp_all

end Nogood

end ExternalAtoms
