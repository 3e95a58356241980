import ExternalAtoms.Proofs.Interpretation.Built
import ExternalAtoms.Proofs.Symbol.Alike

/-! # The same interpretation over two tables

Interpretations over two tables are alike when alike atoms have the same values, in whatever order
they were assigned. Then both are partial or neither is, and alike predicates have alike extensions.
-/
namespace ExternalAtoms
open SymbolTable

namespace Interpretation
variable {table table' later later' : SymbolTable} {i i' : Interpretation} {p p' : Symbol}

/-- Every atom with a value has a counterpart with this value in the other interpretation. -/
def Alike (table table' : SymbolTable) (i i' : Interpretation) : Prop :=
  ∀ v : Truth, Paired (table.Alike table') (fun a => i.truths[a]? = some v)
    fun a' => i'.truths[a']? = some v

namespace Alike

theorem symm (h : Alike table table' i i') : Alike table' table i' i :=
  fun v => (h v).symm fun _ _ ha => ha.symm

theorem extend (h : Alike table table' i i') (ha : Admits table) (hl : Extends table later)
    (ha' : Admits table') (hl' : Extends table' later') : Alike later later' i i' :=
  fun v => (h v).imp fun _ _ hs => hs.extend ha hl ha' hl'

theorem isPartial_eq (h : Alike table table' i i') (hi : i.Snapshot table)
    (hi' : i'.Snapshot table') : i.isPartial = i'.isPartial := by
  rw [Bool.eq_iff_iff, hi.isPartial_iff, hi'.isPartial_iff]
  constructor
  · rintro ⟨a, ha⟩
    obtain ⟨a', ha', -⟩ := (h .unknown).forth a ha
    exact ⟨a', ha'⟩
  · rintro ⟨a', ha'⟩
    obtain ⟨a, ha, -⟩ := (h .unknown).back a' ha'
    exact ⟨a, ha⟩

section Faithful
variable (hw : WellFormed table) (hw' : WellFormed table') (hi : i.Faithful table)
  (hi' : i'.Faithful table')
include hw hw' hi hi'

theorem exists_of_mem_extension (h : Alike table table' i i') (hp : table.Alike table' p p')
    {t : Tuple} (ht : t ∈ i.extension p) :
    ∃ t' ∈ i'.extension p', table.AlikeTuple table' t t' := by
  obtain ⟨a, ha, hheaded, rfl⟩ := (hi.mem_extension p t).mp ht
  obtain ⟨a', ha', hsame⟩ := (h .true).forth a ha
  exact ⟨_, (hi'.mem_extension p' _).mpr ⟨a', ha', hsame.headedBy hw hw' hp hheaded, rfl⟩,
    (hsame.reads hw hw').2.2⟩

theorem extension (h : Alike table table' i i') (hp : table.Alike table' p p') :
    Paired (table.AlikeTuple table') (· ∈ i.extension p) (· ∈ i'.extension p') where
  forth t ht := h.exists_of_mem_extension hw hw' hi hi' hp ht
  back t' ht' := by
    obtain ⟨t, ht, hsame⟩ := h.symm.exists_of_mem_extension hw' hw hi' hi hp.symm ht'
    exact ⟨t, ht, hsame.symm⟩

end Faithful

end Alike

end Interpretation

end ExternalAtoms
