import ExternalAtoms.Plugin
import ExternalAtoms.Signature.Validate

/-! # The registry

The external atoms that are loaded, by predicate. A plugin is registered as a whole: one atom that
is malformed, or whose predicate is taken, keeps out the entire plugin and leaves the registry as it
was.
-/
namespace ExternalAtoms

open Std

/-- A loaded atom and the name of the plugin that it came with. -/
structure RegistryEntry where
  plugin : String
  atom : ExternalAtom

structure Registry where
  entries : ExtTreeMap String RegistryEntry
  plugins : List String

namespace Registry

def empty : Registry := ⟨∅, []⟩

def size (r : Registry) : Nat := r.entries.size

def isEmpty (r : Registry) : Bool := r.entries.isEmpty

def contains (r : Registry) (predicate : String) : Bool := r.entries.contains predicate

def find? (r : Registry) (predicate : String) : Option ExternalAtom :=
  (r.entries[predicate]?).map RegistryEntry.atom

def pluginOf? (r : Registry) (predicate : String) : Option String :=
  (r.entries[predicate]?).map RegistryEntry.plugin

/-- All atoms, in ascending order of their predicates where no order is specified. -/
def atoms (r : Registry) : List ExternalAtom := r.entries.values.map RegistryEntry.atom

/-- The plugin that already has a predicate; `earlier` are those of the new plugin so far. -/
def owner? (r : Registry) (plugin predicate : String) (earlier : List String) : Option String :=
  match r.pluginOf? predicate with
  | some existing => some existing
  | none => if predicate ∈ earlier then some plugin else none

def checkAtoms (r : Registry) (plugin : String) (earlier : List String) :
    List ExternalAtom → Except SignatureError Unit
  | [] => .ok ()
  | atom :: rest => do
    atom.signature.validate plugin
    match r.owner? plugin atom.predicate earlier with
    | some existing => .error (.duplicatePredicate atom.predicate plugin existing)
    | none => r.checkAtoms plugin (atom.predicate :: earlier) rest

def check (r : Registry) (p : Plugin) : Except SignatureError Unit :=
  if p.name.isEmpty then .error .emptyPluginName else r.checkAtoms p.name [] p.atoms

def insert (r : Registry) (plugin : String) (atom : ExternalAtom) : Registry :=
  { r with entries := r.entries.insert atom.predicate ⟨plugin, atom⟩ }

/-- The registry with the atoms of the plugin, whatever it had under their predicates. -/
def load (r : Registry) (p : Plugin) : Registry :=
  let added := p.atoms.foldl (fun r atom => r.insert p.name atom) r
  { added with plugins := added.plugins ++ [p.name] }

/-- Offers a plugin. The answer is the number of atoms that were added. -/
def register (r : Registry) (p : Plugin) : Except SignatureError Nat × Registry :=
  match r.check p with
  | .error e => (.error e, r)
  | .ok () => (.ok p.atoms.length, r.load p)

end Registry

end ExternalAtoms
