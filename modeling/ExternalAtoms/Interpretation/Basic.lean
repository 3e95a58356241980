import ExternalAtoms.Symbol.Tuple
import ExternalAtoms.Truth
import Std.Data.ExtTreeMap

/-! # Interpretations

A read-only snapshot of the input atoms of one evaluation. Atoms that were never assigned are false.
An undecided atom makes the snapshot partial and is in no extension. The atoms are kept in the order
in which they were assigned; the truth values and the extensions are indexed.
-/
namespace ExternalAtoms

open Std

structure Interpretation where
  atoms : Array (Symbol × Truth)
  truths : ExtTreeMap Symbol Truth
  extensions : ExtTreeMap Symbol TupleSet
  undecided : Nat

namespace Interpretation

def empty : Interpretation := ⟨#[], ∅, ∅, 0⟩

def size (i : Interpretation) : Nat := i.atoms.size

def isEmpty (i : Interpretation) : Bool := i.atoms.isEmpty

/-- A negated literal has the complement of its atom's value. -/
def truth (i : Interpretation) (literal : Symbol) : Truth :=
  let value := (i.truths[literal.positive]?).getD .false
  if literal.isNegated then value.negate else value

def isTrue (i : Interpretation) (literal : Symbol) : Bool := (i.truth literal).isTrue

def trueAtoms (i : Interpretation) : List Symbol :=
  (i.atoms.toList.filter fun entry => entry.2.isTrue).map Prod.fst

/-- The atoms that are true or may still become true. -/
def possibleAtoms (i : Interpretation) : List Symbol :=
  (i.atoms.toList.filter fun entry => !entry.2.isFalse).map Prod.fst

def isPartial (i : Interpretation) : Bool := decide (0 < i.undecided)

/-- The argument tuples of the true atoms of a predicate constant. -/
def extension (i : Interpretation) (predicate : Symbol) : TupleSet :=
  (i.extensions[predicate]?).getD ∅

/-- The predicates with a true atom, in ascending order of handles where no order is specified. -/
def predicates (i : Interpretation) : List Symbol := i.extensions.keys

end Interpretation

end ExternalAtoms
