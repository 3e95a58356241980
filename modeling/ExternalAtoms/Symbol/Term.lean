import ExternalAtoms.Symbol.Basic
import ExternalAtoms.Symbol.Name

/-! # Terms

What a handle stands for: a constant or quoted string, an integer, or a name applied to arguments.
Arguments are handles themselves, so equal terms can be told from their keys alone. The order of
terms serves the look-up of stored terms only.
-/
namespace ExternalAtoms

open Std

inductive Term where
  | constant (name : NameId)
  | integer (value : Int64)
  | function (name : NameId) (args : List Symbol)
deriving DecidableEq, Repr

inductive SymbolKind where
  | constant
  | integer
  | function
deriving DecidableEq, Repr

namespace Term

def kind : Term → SymbolKind
  | constant _ => .constant
  | integer _ => .integer
  | function _ _ => .function

def key : Term → List Int
  | constant name => [0, name.index]
  | integer value => [1, value.toInt]
  | function name args => 2 :: (name.index : Int) :: args.map fun arg => (arg.raw.toNat : Int)

theorem nameId_eq {m n : NameId} (h : (m.index : Int) = n.index) : m = n :=
  congrArg NameId.mk (Int.ofNat.inj h)

theorem symbol_eq {s t : Symbol} (h : (s.raw.toNat : Int) = t.raw.toNat) : s = t :=
  Symbol.eq_iff.2 (Int.ofNat.inj h)

theorem key_injective {s t : Term} (h : s.key = t.key) : s = t := by
  cases s <;> cases t
  case constant.constant m n =>
    exact congrArg constant (nameId_eq (List.cons.inj (List.cons.inj h).2).1)
  case integer.integer m n =>
    exact congrArg integer (Int64.toInt_inj.1 (List.cons.inj (List.cons.inj h).2).1)
  case function.function m ms n ns =>
    obtain ⟨names, args⟩ := List.cons.inj (List.cons.inj h).2
    rw [nameId_eq names, List.map_inj_right (fun _ _ => symbol_eq) |>.1 args]
  all_goals exact absurd (List.cons.inj h).1 (by decide)

instance : Ord Term := ⟨compareOn key⟩

instance : TransOrd Term := inferInstanceAs (TransCmp (compareOn key))

instance : LawfulEqOrd Term where
  eq_of_compare h := key_injective (LawfulEqOrd.eq_of_compare (α := List Int) h)

end Term

end ExternalAtoms
