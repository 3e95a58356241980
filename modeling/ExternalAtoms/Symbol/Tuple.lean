import ExternalAtoms.Symbol.Basic
import Std.Data.ExtTreeSet

/-! # Tuples

Arguments and outputs come as tuples of symbols. A finite set of tuples is equal to another when it
has the same members.
-/
namespace ExternalAtoms

abbrev Tuple := List Symbol

/-- A set is iterated in ascending order of the handles, which stands for an order that is
unspecified. The order shows where symbols are stored for one tuple after the other, in
`Invocation.storeAnswer`, `Invocation.deriveNogoods` and along a `Bundled.difference`: in the
handles that they get and in the places of their nogoods in the log. When several tuples are
refused, there or by `Signature.checkAnswer`, the first one is reported. -/
abbrev TupleSet := Std.ExtTreeSet Tuple

end ExternalAtoms
