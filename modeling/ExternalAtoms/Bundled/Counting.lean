import ExternalAtoms.Bundled.Differences

/-! # Atoms that compare and count

A comparison of integers, and two atoms about the number of true atoms of a predicate. While some of
its atoms are undecided only bounds on that number are known, and the answer may be unknown.
-/
namespace ExternalAtoms.Bundled

def identityOfConstant (q : Query) : Retrieval Answer := do
  let s ← inputArgument q 0 "idc"
  return .ofTuples [[s]]

/-- The answer of an atom without output arguments. -/
def verdict : Truth → Answer
  | .true => .ofTuples [[]]
  | .false => .empty
  | .unknown => .undecided []

def smallerThan (q : Query) : Retrieval Answer := do
  let a ← integerArgument q 0 "testSmallerThan"
  let b ← integerArgument q 1 "testSmallerThan"
  return verdict (.ofBool (a < b))

structure Tally where
  trueAtoms : Nat := 0
  unknownAtoms : Nat := 0
deriving DecidableEq, Repr

def Tally.add (t : Tally) : Truth → Tally
  | .true => { t with trueAtoms := t.trueAtoms + 1 }
  | .false => t
  | .unknown => { t with unknownAtoms := t.unknownAtoms + 1 }

/-- Counts the true and the undecided atoms with the given head. -/
def countAtoms (predicate : Symbol) (t : Tally) : List (Symbol × Truth) → Retrieval Tally
  | [] => return t
  | (atom, truth) :: rest => do
    let head ← .head atom
    countAtoms predicate (if head = some predicate then t.add truth else t) rest

def countInputs (q : Query) (predicate : Symbol) : Retrieval Tally :=
  countAtoms predicate {} q.interpretation.atoms.toList

/-- True once there is a true atom, unknown while an undecided one may still become true. -/
def Tally.someTrue (t : Tally) : Truth :=
  if 0 < t.trueAtoms then .true else if 0 < t.unknownAtoms then .unknown else .false

/-- Whether the number of true atoms lies between two bounds, as far as this is settled. -/
def Tally.within (t : Tally) (lower upper : Int) : Truth :=
  let low : Int := t.trueAtoms
  let high : Int := t.trueAtoms + t.unknownAtoms
  if lower ≤ low ∧ high ≤ upper then .true
  else if lower ≤ high ∧ low ≤ upper then .unknown
  else .false

def isEmpty (q : Query) : Retrieval Answer := do
  let predicate ← inputArgument q 0 "isEmpty"
  let tally ← countInputs q predicate
  return verdict tally.someTrue

def numberOfBalls (q : Query) : Retrieval Answer := do
  let predicate ← inputArgument q 0 "numberOfBalls"
  let lower ← integerArgument q 1 "numberOfBalls"
  let upper ← integerArgument q 2 "numberOfBalls"
  let tally ← countInputs q predicate
  return verdict (tally.within lower.toInt upper.toInt)

end ExternalAtoms.Bundled
