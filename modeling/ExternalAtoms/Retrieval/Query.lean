import ExternalAtoms.Interpretation.Basic

/-! # Queries

What an external atom is asked: its input arguments and the interpretation under which it is to
answer. The arguments of a trailing tuple input stand at the end, one by one.
-/
namespace ExternalAtoms

structure Query where
  input : List Symbol
  interpretation : Interpretation

namespace Query

def arg? (q : Query) (index : Nat) : Option Symbol := q.input[index]?

def rest (q : Query) (start : Nat) : List Symbol := q.input.drop start

def extension (q : Query) (predicate : Symbol) : TupleSet := q.interpretation.extension predicate

end Query

end ExternalAtoms
