import ExternalAtoms.Symbol.Table

/-! # Storing symbols

Every operation returns its result together with the table afterwards. A function is refused when an
argument is negated or unknown; an atom also needs a head that is a positive constant spelled as an
identifier. What was interned before a refusal stays: the name of a refused function, and the head
constants that asking for a head stores on demand.
-/
namespace ExternalAtoms.SymbolTable

/-- Quotes, if any, are part of the name. -/
def constant (table : SymbolTable) (text : String) : Symbol × SymbolTable :=
  let named := table.internName text
  named.2.intern (.constant named.1)

def string (table : SymbolTable) (text : String) : Symbol × SymbolTable :=
  table.constant (Text.quote text)

def integer (table : SymbolTable) (value : Int64) : Symbol × SymbolTable :=
  table.intern (.integer value)

/-- The leftmost argument that cannot be used decides the error. -/
def checkArguments (table : SymbolTable) : List Symbol → Except StoreError Unit
  | [] => .ok ()
  | arg :: rest =>
    if arg.isNegated then
      .error (.malformedTuple (.negatedArgument (table.describe arg)))
    else if table.isKnown arg then table.checkArguments rest
    else .error (.unknownSymbol arg.index)

def apply (table : SymbolTable) (name : NameId) (args : List Symbol) :
    Except StoreError Symbol × SymbolTable :=
  if args.isEmpty then
    let stored := table.intern (.constant name)
    (.ok stored.1, stored.2)
  else
    match table.checkArguments args with
    | .error e => (.error e, table)
    | .ok () =>
      let stored := table.intern (.function name args)
      (.ok stored.1, stored.2)

def function (table : SymbolTable) (name : String) (args : List Symbol) :
    Except StoreError Symbol × SymbolTable :=
  let named := table.internName name
  named.2.apply named.1 args

def headName (table : SymbolTable) (head : Symbol) : Except StoreError NameId :=
  match table.resolve? head with
  | none => .error (.unknownSymbol head.index)
  | some (.constant name) =>
    if !head.isNegated && table.isPredicateName name then .ok name
    else .error (.malformedTuple (.badHead (table.describe head)))
  | some _ => .error (.malformedTuple (.badHead (table.describe head)))

def atom (table : SymbolTable) : List Symbol → Except StoreError Symbol × SymbolTable
  | [] => (.error (.malformedTuple .empty), table)
  | head :: args =>
    match table.headName head with
    | .error e => (.error e, table)
    | .ok name => table.apply name args

/-- A function is its name, as a constant, before its arguments; other symbols stand alone. -/
def tuple (table : SymbolTable) (s : Symbol) : Option (List Symbol) × SymbolTable :=
  match table.resolve? s with
  | none => (none, table)
  | some (.function name args) =>
    let stored := table.intern (.constant name)
    (some (stored.1 :: args), stored.2)
  | some _ => (some [s.positive], table)

def head (table : SymbolTable) (s : Symbol) : Option Symbol × SymbolTable :=
  match table.resolve? s with
  | some (.constant name) =>
    if table.isPredicateName name then (some s.positive, table) else (none, table)
  | some (.function name _) =>
    if table.isPredicateName name then
      let stored := table.intern (.constant name)
      (some stored.1, stored.2)
    else (none, table)
  | _ => (none, table)

def isAtom (table : SymbolTable) (s : Symbol) : Bool × SymbolTable :=
  let asked := table.head s
  (asked.1.isSome, asked.2)

/-- Integers and strings are data and have no negation. -/
def negate (table : SymbolTable) (s : Symbol) : Except StoreError Symbol × SymbolTable :=
  if table.isKnown s then
    let asked := table.isAtom s
    if asked.1 then (.ok s.flip, asked.2)
    else (.error (.notALiteral (asked.2.describe s)), asked.2)
  else (.error (.unknownSymbol s.index), table)

end ExternalAtoms.SymbolTable
