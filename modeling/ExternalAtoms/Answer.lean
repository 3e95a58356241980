import ExternalAtoms.Symbol.Tuple

/-! # Answers

The output of one retrieval: the tuples that are certainly in the output relation, and those that
may or may not be. No tuple is both, since reporting a tuple as true settles it for good.
-/
namespace ExternalAtoms

open Std

@[ext]
structure Answer where
  trueTuples : TupleSet
  unknownTuples : TupleSet
  disjoint : ∀ tuple ∈ trueTuples, tuple ∉ unknownTuples
deriving DecidableEq

namespace Answer

def empty : Answer := ⟨∅, ∅, by simp⟩

def isEmpty (a : Answer) : Bool := a.trueTuples.isEmpty && a.unknownTuples.isEmpty

def isTrue (a : Answer) (tuple : Tuple) : Bool := decide (tuple ∈ a.trueTuples)

def isUnknown (a : Answer) (tuple : Tuple) : Bool := decide (tuple ∈ a.unknownTuples)

def settle (a : Answer) (tuple : Tuple) : Answer where
  trueTuples := a.trueTuples.insert tuple
  unknownTuples := a.unknownTuples.erase tuple
  disjoint other := by
    have := a.disjoint other
    grind

def suspect (a : Answer) (tuple : Tuple) (unsettled : tuple ∉ a.trueTuples) : Answer where
  trueTuples := a.trueTuples
  unknownTuples := a.unknownTuples.insert tuple
  disjoint other := by
    have := a.disjoint other
    grind

/-- Reports a tuple as true; says whether it was not yet reported so. -/
def output (a : Answer) (tuple : Tuple) : Bool × Answer :=
  (!a.isTrue tuple, a.settle tuple)

/-- Reports a tuple as unknown, which a true tuple ignores; says whether the report was new. -/
def outputUnknown (a : Answer) (tuple : Tuple) : Bool × Answer :=
  if h : tuple ∈ a.trueTuples then (false, a)
  else (!a.isUnknown tuple, a.suspect tuple h)

/-- The answer that reports the given tuples as true and no others. -/
def ofTuples (tuples : List Tuple) : Answer := tuples.foldl settle empty

/-- The answer that reports one tuple as unknown. -/
def undecided (tuple : Tuple) : Answer := empty.suspect tuple (by simp [empty])

def dropUnknown (a : Answer) : Answer := ⟨a.trueTuples, ∅, by simp⟩

end Answer

end ExternalAtoms
