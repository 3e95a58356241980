import ExternalAtoms.Signature.Basic
import ExternalAtoms.Text.Escaped
import ExternalAtoms.Text.Record

/-! # The diagnostic text of an external atom

The text shows every field of the signature. What the atom does has no text, and dots stand for it.
-/
namespace ExternalAtoms

def InputKind.describe : InputKind → String
  | predicate => "Predicate"
  | constant => "Constant"
  | tuple => "Tuple"

def Properties.describe (p : Properties) : String :=
  let positions := fun (indices : List Nat) => Text.showList (indices.map Nat.repr)
  Text.showRecord "ExtSourceProperties"
    [("provides_partial_answer", Text.showBool p.partialAnswers),
      ("do_input_output_learning", Text.showBool p.learning),
      ("finite_output_domain", positions p.finiteOutputs),
      ("monotonic_inputs", positions p.monotonic),
      ("antimonotonic_inputs", positions p.antimonotonic)]

namespace Signature

def describe (s : Signature) : String :=
  Text.showRecord "AtomDescriptor"
    [("predicate", Text.showEscaped s.predicate),
      ("inputs", Text.showList (s.inputs.map InputKind.describe)),
      ("output_arity", Nat.repr s.outputArity),
      ("properties", s.properties.describe)]

def describeAtom (s : Signature) : String :=
  "PluginAtom \x7b descriptor: " ++ s.describe ++ ", .. \x7d"

end Signature

end ExternalAtoms
