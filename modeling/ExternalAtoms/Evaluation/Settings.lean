/-! # Settings of an evaluator

Whether nogoods are derived for the atoms that allow it, and whether unknown tuples of an atom that
may not report any are an error rather than dropped. Both are on by default.
-/
namespace ExternalAtoms

structure Settings where
  learning : Bool := true
  strict : Bool := true
deriving DecidableEq, Repr

end ExternalAtoms
