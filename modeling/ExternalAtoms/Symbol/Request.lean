import ExternalAtoms.Symbol.Store
import ExternalAtoms.Symbol.Tuple

/-! # Store requests

The operations that may add to a symbol table, as data. Each request has a type of replies; running
a request answers it and gives the table afterwards.
-/
namespace ExternalAtoms

inductive StoreRequest where
  | constant (text : String)
  | string (text : String)
  | integer (value : Int64)
  | function (name : String) (args : List Symbol)
  | atom (elements : Tuple)
  | tuple (s : Symbol)
  | head (s : Symbol)
  | isAtom (s : Symbol)
  | negate (s : Symbol)

namespace StoreRequest

abbrev Reply : StoreRequest → Type
  | constant _ | string _ | integer _ => Symbol
  | function _ _ | atom _ | negate _ => Except StoreError Symbol
  | tuple _ => Option Tuple
  | head _ => Option Symbol
  | isAtom _ => Bool

def run : (request : StoreRequest) → SymbolTable → request.Reply × SymbolTable
  | constant text, table => table.constant text
  | string text, table => table.string text
  | integer value, table => table.integer value
  | function name args, table => table.function name args
  | atom elements, table => table.atom elements
  | tuple s, table => table.tuple s
  | head s, table => table.head s
  | isAtom s, table => table.isAtom s
  | negate s, table => table.negate s

end StoreRequest

end ExternalAtoms
