import ExternalAtoms.Nogood.Basic
import ExternalAtoms.Symbol.Store

/-! # Nogoods over a symbol table

A nogood can be submitted when it is not empty and each of its literals is known to the table and
stands for an atom. The literals are examined in ascending order, and the heads of those examined
before a refusal stay stored.
-/
namespace ExternalAtoms.SymbolTable

def checkLiterals (table : SymbolTable) : List Symbol → Except StoreError Unit × SymbolTable
  | [] => (.ok (), table)
  | literal :: rest =>
    if table.isKnown literal then
      let asked := table.isAtom literal
      if asked.1 then asked.2.checkLiterals rest
      else (.error (.notALiteral (asked.2.describe literal)), asked.2)
    else (.error (.unknownSymbol literal.index), table)

def checkNogood (table : SymbolTable) (n : Nogood) : Except StoreError Unit × SymbolTable :=
  if n.isEmpty then (.error .emptyNogood, table) else table.checkLiterals n.literals

end ExternalAtoms.SymbolTable
