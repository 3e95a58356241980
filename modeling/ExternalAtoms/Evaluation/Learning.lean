import ExternalAtoms.Plugin

/-! # Learning from inputs and outputs

A true output tuple is justified by the input literals that its atom may have looked at: the atoms
of its predicate inputs that are true, and the negations of those that are false. At an
antimonotonic position true atoms can only take outputs away, and at a monotonic position false
atoms can only fail to add some, so neither belongs to a justification. Together with the negated
output atom the justification is a nogood. An undecided atom could still change the answer, unless
it may only add to it, so under any but a monotonic position it keeps the evaluation from deriving
nogoods.
-/
namespace ExternalAtoms

inductive Contribution where
  | literal (s : Symbol)
  | nothing
  | undecided
deriving DecidableEq, Repr

def Properties.contribution (p : Properties) (index : Nat) (atom : Symbol) :
    Truth → Contribution
  | .true => if p.isAntimonotonic index then .nothing else .literal atom
  | .false => if p.isMonotonic index then .nothing else .literal atom.flip
  | .unknown => if p.isMonotonic index then .nothing else .undecided

/-- The literals of the atoms with the given head, or nothing if one of them is undecided. -/
def Properties.premiseAt (p : Properties) (index : Nat) (predicate : Symbol) :
    List (Symbol × Truth) → SymbolTable → Option (List Symbol) × SymbolTable
  | [], table => (some [], table)
  | (atom, truth) :: rest, table =>
    let asked := table.head atom
    if asked.1 = some predicate then
      match p.contribution index atom truth with
      | .undecided => (none, asked.2)
      | .nothing => p.premiseAt index predicate rest asked.2
      | .literal s =>
        let others := p.premiseAt index predicate rest asked.2
        (others.1.map (s :: ·), others.2)
    else p.premiseAt index predicate rest asked.2

def Signature.premiseFrom (s : Signature) (i : Interpretation) (index : Nat) :
    List Symbol → SymbolTable → Option (List Symbol) × SymbolTable
  | [], table => (some [], table)
  | arg :: rest, table =>
    if s.kindAt index = some .predicate then
      let here := s.properties.premiseAt index arg i.atoms.toList table
      match here.1 with
      | none => (none, here.2)
      | some literals =>
        let others := s.premiseFrom i (index + 1) rest here.2
        (others.1.map (literals ++ ·), others.2)
    else s.premiseFrom i (index + 1) rest table

namespace Invocation

def premise (call : Invocation) (i : Interpretation) (table : SymbolTable) :
    Option (List Symbol) × SymbolTable :=
  call.signature.premiseFrom i 0 call.input table

/-- The nogood that forbids the premise without the output atom. -/
def justify (premise : List Symbol) (output : Symbol) : Nogood :=
  .ofList (premise ++ [output.flip])

def deriveNogoods (call : Invocation) (i : Interpretation) (tuples : List Tuple)
    (table : SymbolTable) : Except StoreError (List Nogood) × SymbolTable :=
  let premised := call.premise i table
  match premised.1 with
  | none => (.ok [], premised.2)
  | some premise =>
    let stored := call.storeOutputAtoms premised.2 tuples
    (stored.1.map fun outputs => outputs.map (justify premise), stored.2)

end Invocation

end ExternalAtoms
