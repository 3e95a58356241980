import ExternalAtoms.Proofs.Interpretation.Refinement

/-! # Completing an interpretation

A completion decides every atom that was undecided and keeps the other values. Any set of the
undecided atoms may be the one that becomes true: since the heads of all atoms are stored, assigning
the atoms anew stores nothing, and what is built from it is built on the same table.
-/
namespace ExternalAtoms
open SymbolTable

namespace Truth
variable {v : Truth}

/-- What was undecided becomes true or false. -/
def settle (v : Truth) (becomesTrue : Bool) : Truth :=
  if v = .unknown then .ofBool becomesTrue else v

theorem settle_of_ne (h : v ≠ .unknown) (becomesTrue : Bool) : v.settle becomesTrue = v := if_neg h

theorem settle_ne_unknown (v : Truth) (becomesTrue : Bool) : v.settle becomesTrue ≠ .unknown := by
  cases v <;> cases becomesTrue <;> decide

end Truth

namespace Assignment
variable {table : SymbolTable} {a : Assignment}

def setAll (a : Assignment) (value : Symbol → Truth) (atoms : List Symbol) : Assignment :=
  atoms.foldl (fun a s => a.set s (value s)) a

theorem truths_setAll (a : Assignment) (value : Symbol → Truth) (atoms : List Symbol) (s : Symbol) :
    (a.setAll value atoms).truths[s]? = if s ∈ atoms then some (value s) else a.truths[s]? := by
  induction atoms generalizing a with
  | nil => simp [setAll]
  | cons first rest ih =>
    rw [setAll, List.foldl_cons, ← setAll, ih, set, Std.ExtTreeMap.getElem?_insert]
    simp only [List.mem_cons, Std.LawfulEqCmp.compare_eq_iff_eq]
    by_cases hs : first = s
    · simp [hs]
    · simp [hs, Ne.symm hs]

theorem MadeOn.setAll (h : MadeOn table a) (value : Symbol → Truth) {atoms : List Symbol}
    (hatoms : ∀ s ∈ atoms, s.isNegated = false ∧ ∃ p, table.HeadOf s p) :
    MadeOn table (a.setAll value atoms) := by
  induction atoms generalizing a with
  | nil => exact h
  | cons first rest ih =>
    obtain ⟨hn, p, hp⟩ := hatoms first List.mem_cons_self
    have hatom : table.isAtom first = (true, table) := by
      simp only [isAtom, show table.head first = (some p, table) from hp, Option.isSome_some]
    exact ih (h.set hn hatom (value first)) fun s hs => hatoms s (List.mem_cons_of_mem _ hs)

end Assignment

namespace Interpretation
variable {i j : Interpretation} {table : SymbolTable}

/-- The second interpretation refines the first one and leaves nothing undecided. -/
structure CompletedBy (i j : Interpretation) : Prop extends i.RefinedBy j where
  complete : j.isPartial = false

def settled (i : Interpretation) (becomesTrue : Symbol → Bool) (s : Symbol) : Truth :=
  ((i.truths[s]?).getD .false).settle (becomesTrue s)

theorem completedBy_of_truths (hj : j.Snapshot table) {becomesTrue : Symbol → Bool}
    (h : ∀ s : Symbol, j.truths[s]? = i.truths[s]?.map fun v => v.settle (becomesTrue s)) :
    i.CompletedBy j where
  assigned s := by
    rw [Std.ExtTreeMap.mem_iff_isSome_getElem?, Std.ExtTreeMap.mem_iff_isSome_getElem?, h,
      Option.isSome_map]
  keeps s v hv hdecided := by rw [h, hv, Option.map_some, Truth.settle_of_ne hdecided]
  complete := by
    refine hj.isPartial_eq_false_iff.mpr fun s hs => ?_
    rw [h, Option.map_eq_some_iff] at hs
    obtain ⟨v, -, hv⟩ := hs
    exact v.settle_ne_unknown _ hv

/-- Whichever of the undecided atoms are to become true, there is a completion in which they do and
the others do not. -/
theorem BuiltOn.exists_completion (hi : i.BuiltOn table) (becomesTrue : Symbol → Bool) :
    ∃ j : Interpretation, j.BuiltOn table ∧ i.CompletedBy j ∧
      ∀ s : Symbol, j.truths[s]? = i.truths[s]?.map fun v => v.settle (becomesTrue s) := by
  have hs := hi.snapshot
  have hlisted : ∀ s, s ∈ i.atoms.toList.map Prod.fst ↔ ∃ v, i.truths[s]? = some v := by
    intro s
    simp only [← hs.mem_atoms, List.mem_map, Prod.exists, exists_and_right, exists_eq_right]
  have hmade : Assignment.MadeOn table
      (Assignment.empty.setAll (i.settled becomesTrue) (i.atoms.toList.map Prod.fst)) := by
    refine (Assignment.MadeOn.start hi.reached).setAll _ fun s hmem => ?_
    obtain ⟨v, hv⟩ := (hlisted s).mp hmem
    exact hs.headed s v hv
  obtain ⟨j, hbuild, htruths, hj⟩ := hmade.valid.build
  have hvalues : ∀ s : Symbol,
      j.truths[s]? = i.truths[s]?.map fun v => v.settle (becomesTrue s) := by
    intro s
    rw [htruths, Assignment.truths_setAll]
    cases hv : i.truths[s]? with
    | none => simp [hlisted, hv, Assignment.empty]
    | some v => simp [hlisted, hv, settled]
  refine ⟨j, ⟨_, table, hmade, congrArg Prod.fst hbuild, ?_⟩, completedBy_of_truths hj hvalues,
    hvalues⟩
  rw [hbuild]
  exact .refl

end Interpretation

end ExternalAtoms
