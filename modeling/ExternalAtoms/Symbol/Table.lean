import ExternalAtoms.Symbol.Fault
import ExternalAtoms.Symbol.Term
import ExternalAtoms.Symbol.Tree
import ExternalAtoms.Text.Identifier
import ExternalAtoms.Text.Quoted

/-! # The symbol table

An append-only arena of terms in which equal terms are stored once. Besides the terms it keeps the
handle of each, so that storing a term again finds it. Reading a handle ignores its negation bit,
and a handle made by another table may be unknown here.
-/
namespace ExternalAtoms

open Std

structure SymbolTable where
  names : NameTable
  terms : Array Term
  handles : ExtTreeMap Term Symbol

namespace SymbolTable

def empty : SymbolTable := ⟨.empty, #[], ∅⟩

def size (table : SymbolTable) : Nat := table.terms.size

def isEmpty (table : SymbolTable) : Bool := table.terms.isEmpty

def resolve? (table : SymbolTable) (s : Symbol) : Option Term := table.terms[s.index]?

def isKnown (table : SymbolTable) (s : Symbol) : Bool := decide (s.index < table.size)

def kind? (table : SymbolTable) (s : Symbol) : Option SymbolKind := (table.resolve? s).map Term.kind

def name? (table : SymbolTable) (s : Symbol) : Option String :=
  match table.resolve? s with
  | some (.constant name) | some (.function name _) => table.names.resolve? name
  | _ => none

def integer? (table : SymbolTable) (s : Symbol) : Option Int64 :=
  match table.resolve? s with
  | some (.integer value) => some value
  | _ => none

/-- Constants, integers and unknown handles have no arguments. -/
def arguments (table : SymbolTable) (s : Symbol) : List Symbol :=
  match table.resolve? s with
  | some (.function _ args) => args
  | _ => []

def isPredicateName (table : SymbolTable) (name : NameId) : Bool :=
  (table.names.resolve? name).any Text.isIdentifier

def isPredicateConstant (table : SymbolTable) (s : Symbol) : Bool :=
  match table.resolve? s with
  | some (.constant name) => table.isPredicateName name
  | _ => false

def isString (table : SymbolTable) (s : Symbol) : Bool :=
  match table.resolve? s with
  | some (.constant name) => (table.names.resolve? name).any Text.isQuoted
  | _ => false

/-- A key that leads nowhere is shown as a question mark. -/
def nameText (table : SymbolTable) (name : NameId) : String :=
  (table.names.resolve? name).getD "?"

/-- The tree of a handle, if it has at most `depth` levels. -/
def treeWithin (table : SymbolTable) : Nat → Symbol → Except StoreError Tree
  | 0, s => .error (.unknownSymbol s.index)
  | depth + 1, s =>
    match table.resolve? s with
    | none => .error (.unknownSymbol s.index)
    | some (.constant name) => .ok (.constant (table.nameText name))
    | some (.integer value) => .ok (.integer value)
    | some (.function name args) => do
      let trees ← args.mapM (table.treeWithin depth)
      return .function (table.nameText name) trees

/-- The arguments of a stored term are older than the term, so its index bounds its depth. -/
def tree (table : SymbolTable) (s : Symbol) : Except StoreError Tree :=
  table.treeWithin (s.index + 1) s

def render (table : SymbolTable) (s : Symbol) : Except StoreError String := do
  let tree ← table.tree s
  return (if s.isNegated then "-" else "") ++ tree.text

/-- A rendering for messages: an unknown handle is shown by its index. -/
def describe (table : SymbolTable) (s : Symbol) : String :=
  match table.render s with
  | .ok text => text
  | .error _ => s.label

def intern (table : SymbolTable) (term : Term) : Symbol × SymbolTable :=
  match table.handles[term]? with
  | some s => (s, table)
  | none =>
    let s := Symbol.ofIndex table.terms.size
    (s, { table with terms := table.terms.push term, handles := table.handles.insert term s })

def internName (table : SymbolTable) (text : String) : NameId × SymbolTable :=
  let interned := table.names.intern text
  (interned.1, { table with names := interned.2 })

end SymbolTable

end ExternalAtoms
