import ExternalAtoms.Decimal.Tenths

/-! # Counters

What an evaluator counts: the calls that succeeded and those that failed, the tuples in the answers,
and the nogoods by their source and novelty, those that plugins submitted as learned ones. The
counters are 64-bit words and start again from zero when they overflow.
-/
namespace ExternalAtoms

structure Counters where
  evaluations : UInt64 := 0
  failures : UInt64 := 0
  trueTuples : UInt64 := 0
  unknownTuples : UInt64 := 0
  /-- Unknown tuples removed from answers that may not hold any. -/
  droppedTuples : UInt64 := 0
  nogoodsLearned : UInt64 := 0
  nogoodsDerived : UInt64 := 0
  /-- Nogoods that did not go to the log, because they were known or can never apply. -/
  nogoodsDuplicate : UInt64 := 0
deriving DecidableEq, Repr

namespace Counters

def recordEvaluation (c : Counters) (trueTuples unknownTuples : Nat) : Counters :=
  { c with
    evaluations := c.evaluations + 1
    trueTuples := c.trueTuples + UInt64.ofNat trueTuples
    unknownTuples := c.unknownTuples + UInt64.ofNat unknownTuples }

def recordFailure (c : Counters) : Counters := { c with failures := c.failures + 1 }

def recordDropped (c : Counters) (count : Nat) : Counters :=
  { c with droppedTuples := c.droppedTuples + UInt64.ofNat count }

def recordNogood (c : Counters) (derived fresh : Bool) : Counters :=
  if !fresh then { c with nogoodsDuplicate := c.nogoodsDuplicate + 1 }
  else if derived then { c with nogoodsDerived := c.nogoodsDerived + 1 }
  else { c with nogoodsLearned := c.nogoodsLearned + 1 }

/-- The share of calls that succeeded; all of them, if there were none. -/
def successRate (c : Counters) : Float :=
  let total := c.evaluations + c.failures
  if total = 0 then 1.0 else c.evaluations.toFloat / total.toFloat

def nogoodsPerEvaluation (c : Counters) : Float :=
  if c.evaluations = 0 then 0.0
  else (c.nogoodsLearned + c.nogoodsDerived).toFloat / c.evaluations.toFloat

def summary (c : Counters) : String :=
  let count := fun (n : UInt64) => Nat.repr n.toNat
  "=== External Atom Metrics ===\n" ++
    "Evaluations:        " ++ count c.evaluations ++ " (" ++ count c.failures ++ " failures, " ++
      Decimal.writeFloat (c.successRate * 100.0) ++ "% success)\n" ++
    "Output tuples:      " ++ count c.trueTuples ++ " true, " ++ count c.unknownTuples ++
      " unknown, " ++ count c.droppedTuples ++ " dropped\n" ++
    "Nogoods:            " ++ count c.nogoodsLearned ++ " learned, " ++ count c.nogoodsDerived ++
      " derived, " ++ count c.nogoodsDuplicate ++ " duplicate\n"

end Counters

end ExternalAtoms
