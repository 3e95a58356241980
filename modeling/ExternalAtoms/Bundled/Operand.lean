import ExternalAtoms.Plugin
import ExternalAtoms.Text.Quoted

/-! # Operands of the bundled atoms

Reading the arguments of a query. For building strings an argument counts as its rendered text,
except that a string constant loses its quotes and escapes and is marked as having had them.
-/
namespace ExternalAtoms.Bundled

structure Operand where
  text : String
  quoted : Bool
deriving DecidableEq, Repr

def Operand.ofText (text : String) : Operand :=
  if Text.isQuoted text then ⟨Text.unquote text, true⟩ else ⟨text, false⟩

def operand (table : SymbolTable) (s : Symbol) : Except StoreError Operand :=
  (table.render s).map Operand.ofText

def readOperand (s : Symbol) : Retrieval Operand := do
  let table ← .read
  .ofStored (operand table s)

def readOperands (input : List Symbol) : Retrieval (List Operand) := do
  let table ← .read
  .ofStored (input.mapM (operand table))

def joinTexts (operands : List Operand) : String := String.join (operands.map Operand.text)

/-- A string constant if the text is to be quoted, a bare constant otherwise. -/
def storeText (text : String) (quoted : Bool) : Retrieval Symbol :=
  if quoted then .string text else .constant text

def argument (q : Query) (index : Nat) (predicate message : String) : Retrieval Symbol :=
  match q.arg? index with
  | some s => pure s
  | none => .fail (.plugin predicate message)

def integerArgument (q : Query) (index : Nat) (predicate : String) : Retrieval Int64 := do
  let table ← .read
  match (q.arg? index).bind table.integer? with
  | some value => pure value
  | none => .fail (.plugin predicate ("input " ++ Nat.repr index ++ " must be an integer"))

end ExternalAtoms.Bundled
