/-! # Truth values

An atom is true, false or still undecided. The negation of an undecided atom is undecided.
-/
namespace ExternalAtoms

inductive Truth where
  | true
  | false
  | unknown
deriving DecidableEq, Repr

namespace Truth

def ofBool (b : Bool) : Truth := if b then .true else .false

def negate : Truth → Truth
  | .true => .false
  | .false => .true
  | .unknown => .unknown

def isTrue (t : Truth) : Bool := t == .true

def isFalse (t : Truth) : Bool := t == .false

def isDecided (t : Truth) : Bool := t != .unknown

@[simp] theorem negate_negate (t : Truth) : t.negate.negate = t := by cases t <;> rfl

end Truth

end ExternalAtoms
