import ExternalAtoms.Text.Escaped

/-! # Why a plugin is refused

Each cause names the plugin or the predicate it concerns and, where there is one, the position of
the input or output that is at fault.
-/
namespace ExternalAtoms

inductive Monotonicity where
  | monotonic
  | antimonotonic
deriving DecidableEq, Repr

def Monotonicity.name : Monotonicity → String
  | monotonic => "monotonic"
  | antimonotonic => "antimonotonic"

inductive SignatureError where
  | emptyPluginName
  | emptyPredicate (plugin : String)
  | invalidPredicate (plugin predicate : String)
  | tupleNotLast (predicate : String) (index : Nat)
  | notAPredicateInput (predicate : String) (index : Nat) (property : Monotonicity)
  | conflictingMonotonicity (predicate : String) (index : Nat)
  | outputIndexOutOfRange (predicate : String) (index arity : Nat)
  | duplicatePredicate (predicate plugin existing : String)
deriving DecidableEq, Repr

def SignatureError.message : SignatureError → String
  | emptyPluginName => "plugin name must not be empty"
  | emptyPredicate plugin =>
    "plugin " ++ plugin ++ ": external atom predicate name must not be empty"
  | invalidPredicate plugin predicate =>
    "plugin " ++ plugin ++ ": invalid predicate name " ++ Text.showEscaped predicate
  | tupleNotLast predicate index =>
    "&" ++ predicate ++ ": tuple input at position " ++ Nat.repr index ++ " must be the last input"
  | notAPredicateInput predicate index property =>
    "&" ++ predicate ++ ": input " ++ Nat.repr index ++ " declared " ++ property.name ++
      " but is not a predicate input"
  | conflictingMonotonicity predicate index =>
    "&" ++ predicate ++ ": input " ++ Nat.repr index ++
      " declared both monotonic and antimonotonic"
  | outputIndexOutOfRange predicate index arity =>
    "&" ++ predicate ++ ": finite output domain index " ++ Nat.repr index ++
      " exceeds output arity " ++ Nat.repr arity
  | duplicatePredicate predicate plugin existing =>
    "&" ++ predicate ++ " from plugin " ++ plugin ++ " is already defined by plugin " ++ existing

end ExternalAtoms
