import ExternalAtoms.Nogood.Basic
import Std.Data.ExtTreeSet

/-! # The nogood log

The nogoods of a solving session, in the order in which they were first added. The log only grows,
so a reader who remembers how many it has seen can ask for the ones since. Empty and trivial nogoods
are never added, and no nogood is added twice.
-/
namespace ExternalAtoms

open Std

structure NogoodLog where
  entries : Array Nogood
  seen : ExtTreeSet Nogood
  mem_seen_iff : ∀ n, n ∈ seen ↔ n ∈ entries

namespace NogoodLog

def empty : NogoodLog := ⟨#[], ∅, by simp⟩

def size (log : NogoodLog) : Nat := log.entries.size

def isEmpty (log : NogoodLog) : Bool := log.entries.isEmpty

def contains (log : NogoodLog) (n : Nogood) : Bool := decide (n ∈ log.seen)

def toList (log : NogoodLog) : List Nogood := log.entries.toList

/-- The nogoods after the first `start`. -/
def since (log : NogoodLog) (start : Nat) : List Nogood := log.toList.drop start

def push (log : NogoodLog) (n : Nogood) : NogoodLog where
  entries := log.entries.push n
  seen := log.seen.insert n
  mem_seen_iff other := by
    have := log.mem_seen_iff other
    grind

/-- Adds a nogood and says whether it was added. -/
def insert (log : NogoodLog) (n : Nogood) : Bool × NogoodLog :=
  if n.isEmpty || n.isTrivial || log.contains n then (false, log) else (true, log.push n)

end NogoodLog

end ExternalAtoms
