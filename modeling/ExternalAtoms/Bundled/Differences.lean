import ExternalAtoms.Bundled.Operand

/-! # Atoms that read extensions

The difference of the extensions of two predicates in three ways: from the indexed extensions, from
a scan of the true atoms, and with a nogood submitted for every output. Besides, the extension of
one unary predicate.
-/
namespace ExternalAtoms.Bundled

def inputArgument (q : Query) (index : Nat) (predicate : String) : Retrieval Symbol :=
  argument q index predicate ("missing input " ++ Nat.repr index)

def difference (minuend subtrahend : TupleSet) : List Tuple :=
  minuend.toList.filter (· ∉ subtrahend)

def setMinus (q : Query) : Retrieval Answer := do
  let minuend ← inputArgument q 0 "testSetMinus"
  let subtrahend ← inputArgument q 1 "testSetMinus"
  return .ofTuples (difference (q.extension minuend) (q.extension subtrahend))

def gather (first second : Symbol) : List Symbol → Retrieval (TupleSet × TupleSet)
  | [] => return (∅, ∅)
  | atom :: rest => do
    let head ← .head atom
    let table ← .read
    let found ← gather first second rest
    let tuple := table.arguments atom
    return (if head = some first then found.1.insert tuple else found.1,
      if head = some second then found.2.insert tuple else found.2)

def setMinusTrueAtoms (q : Query) : Retrieval Answer := do
  let minuend ← inputArgument q 0 "testSetMinusTrueAtoms"
  let subtrahend ← inputArgument q 1 "testSetMinusTrueAtoms"
  let found ← gather minuend subtrahend q.interpretation.trueAtoms
  return .ofTuples (difference found.1 found.2)

/-- Submits that a tuple cannot be in the first extension, not in the second, and no output. -/
def learnOutput (minuend subtrahend : Symbol) (tuple : Tuple) : Retrieval Unit := do
  let member ← .atom (minuend :: tuple)
  let nonMember ← .negate (← .atom (subtrahend :: tuple))
  let notOutput ← .negate (← .outputAtom tuple)
  .learn (.ofList [member, nonMember, notOutput])

def setMinusLearn (q : Query) : Retrieval Answer := do
  let minuend ← inputArgument q 0 "testSetMinusLearn"
  let subtrahend ← inputArgument q 1 "testSetMinusLearn"
  let outputs := difference (q.extension minuend) (q.extension subtrahend)
  outputs.forM (learnOutput minuend subtrahend)
  return .ofTuples outputs

/-- The extension of a predicate all of whose true atoms are unary. -/
def identity (q : Query) : Retrieval Answer := do
  let predicate ← inputArgument q 0 "id"
  let tuples := (q.extension predicate).toList
  if tuples.all fun tuple => tuple.length == 1 then return .ofTuples tuples
  else .fail (.plugin "id" "only predicates of arity 1 are supported")

end ExternalAtoms.Bundled
