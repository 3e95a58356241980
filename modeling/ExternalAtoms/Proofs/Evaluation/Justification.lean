import ExternalAtoms.Proofs.Evaluation.OutputAtom
import ExternalAtoms.Proofs.Evaluation.Premise
import ExternalAtoms.Proofs.Nogood.Literals
import ExternalAtoms.Proofs.Signature.Dependence

/-! # What a premise says about other interpretations

The literals of a premise are read in another interpretation. Where they hold, the extensions of the
predicate inputs have changed only in directions that the declared properties allow, and at a
position without such declarations the atoms have kept their values.
-/
namespace ExternalAtoms
open SymbolTable

namespace Interpretation
variable {i : Interpretation} {a : Symbol}

theorem isTrue_iff (hn : a.isNegated = false) :
    i.isTrue a = true ↔ i.truths[a]? = some .true := by
  rw [isTrue, truth, Symbol.positive_eq_self hn, if_neg (by simp [hn])]
  cases i.truths[a]? with
  | none => decide
  | some v => cases v <;> decide

theorem isTrue_flip_iff (hn : a.isNegated = false) :
    i.isTrue a.flip = true ↔ i.truths[a]? = none ∨ i.truths[a]? = some .false := by
  rw [isTrue, truth, a.positive_flip, Symbol.positive_eq_self hn, if_pos (by simp [hn])]
  cases i.truths[a]? with
  | none => decide
  | some v => cases v <;> decide

end Interpretation

/-- What the atom of one position adds to a premise. -/
def Invocation.InputLiteral (call : Invocation) (table : SymbolTable) (i : Interpretation)
    (l : Symbol) : Prop :=
  ∃ index a v, call.InputAtom table i index a v ∧
    call.signature.properties.contribution index a v = .literal l

/-- The other interpretation makes the literals of this premise true, and assigns no atom of a
position that is not monotonic unless this one does. -/
structure Invocation.Justifies (call : Invocation) (table : SymbolTable)
    (i j : Interpretation) : Prop where
  decided : ∀ index a v, call.InputAtom table i index a v →
    call.signature.properties.contribution index a v ≠ .undecided
  holds : ∀ l, call.InputLiteral table i l → j.isTrue l = true
  assigned : ∀ index a v, call.InputAtom table j index a v →
    call.signature.properties.isMonotonic index = false → ∃ w, i.truths[a]? = some w

namespace Invocation
variable {call : Invocation} {table later : SymbolTable} {i j : Interpretation} {index : Nat}
  {a : Symbol}

theorem inputAtom_iff_of_extends (hi : i.Faithful table) (hl : Extends table later)
    (hw : WellFormed later) {v : Truth} :
    call.InputAtom later i index a v ↔ call.InputAtom table i index a v := by
  constructor
  · rintro ⟨p, hp, hk, ha, hv⟩
    obtain ⟨-, q, hq⟩ := hi.headed a v hv
    exact ⟨p, hp, hk, (hq.iff_of_extends hw hl).mp ha, hv⟩
  · rintro ⟨p, hp, hk, ha, hv⟩
    exact ⟨p, hp, hk, ha.extend hl, hv⟩

namespace Justifies

theorem keeps_true (h : call.Justifies table i j) (hi : i.Faithful table)
    (ha : call.InputAtom table i index a .true)
    (hd : call.signature.properties.isAntimonotonic index = false) :
    j.truths[a]? = some .true := by
  obtain ⟨hn, -⟩ := hi.headed a _ ha.choose_spec.2.2.2
  refine (Interpretation.isTrue_iff hn).mp (h.holds a ⟨index, a, .true, ha, ?_⟩)
  rw [Properties.contribution, hd]
  rfl

theorem keeps_false (h : call.Justifies table i j) (hi : i.Faithful table)
    (ha : call.InputAtom table i index a .false)
    (hd : call.signature.properties.isMonotonic index = false) :
    j.truths[a]? = none ∨ j.truths[a]? = some .false := by
  obtain ⟨hn, -⟩ := hi.headed a _ ha.choose_spec.2.2.2
  refine (Interpretation.isTrue_flip_iff hn).mp (h.holds a.flip ⟨index, a, .false, ha, ?_⟩)
  rw [Properties.contribution, hd]
  rfl

theorem not_unknown (h : call.Justifies table i j)
    (ha : call.InputAtom table i index a .unknown) :
    call.signature.properties.isMonotonic index = true := by
  by_contra hd
  rw [Bool.not_eq_true] at hd
  refine h.decided index a .unknown ha ?_
  rw [Properties.contribution, hd]
  rfl

theorem was_true (h : call.Justifies table i j) (hi : i.Faithful table)
    (ha : call.InputAtom table j index a .true)
    (hd : call.signature.properties.isMonotonic index = false) :
    i.truths[a]? = some .true := by
  obtain ⟨w, hw⟩ := h.assigned index a .true ha hd
  obtain ⟨p, hp, hk, hhead, hj⟩ := ha
  -- the premise excludes the other values that the atom may have had
  have hbefore : call.InputAtom table i index a w := ⟨p, hp, hk, hhead, hw⟩
  cases w with
  | «true» => exact hw
  | unknown => simp [h.not_unknown hbefore] at hd
  | «false» =>
    rcases h.keeps_false hi hbefore hd with hnone | hfalse
    · simp [hnone] at hj
    · simp [hfalse] at hj

theorem same_value (h : call.Justifies table i j) (hi : i.Faithful table)
    (hsame : ∀ a, a ∈ i.truths ↔ a ∈ j.truths) {p : Symbol}
    (hp : call.input[index]? = some p) (hk : call.signature.kindAt index = some .predicate)
    (hm : call.signature.properties.isMonotonic index = false)
    (hd : call.signature.properties.isAntimonotonic index = false) (ha : table.HeadedBy a p) :
    i.truths[a]? = j.truths[a]? := by
  cases hv : i.truths[a]? with
  | none =>
    have hnone : a ∉ j.truths := by
      rw [← hsame, Std.ExtTreeMap.mem_iff_isSome_getElem?, hv]
      simp
    rw [Std.ExtTreeMap.getElem?_eq_none hnone]
  | some v =>
    have hinput : call.InputAtom table i index a v := ⟨p, hp, hk, ha, hv⟩
    cases v with
    | «true» => exact (h.keeps_true hi hinput hd).symm
    | unknown => simp [h.not_unknown hinput] at hm
    | «false» =>
      rcases h.keeps_false hi hinput hm with hnone | hfalse
      · have hmem : a ∈ j.truths := by
          rw [← hsame, Std.ExtTreeMap.mem_iff_isSome_getElem?, hv]
          rfl
        rw [Std.ExtTreeMap.mem_iff_isSome_getElem?, hnone] at hmem
        simp at hmem
      · exact hfalse.symm

end Justifies

theorem mem_extensionAt (hi : i.Faithful table) {x : Tuple} :
    x ∈ call.signature.extensionAt ⟨call.input, i⟩ index ↔
      ∃ a, call.InputAtom table i index a .true ∧ table.arguments a = x := by
  unfold Signature.extensionAt
  split
  · next hk =>
    simp only [Query.arg?]
    cases hp : call.input[index]? with
    | none => simp [InputAtom, hp]
    | some p =>
      simp only [Option.map_some, Option.getD_some, Query.extension, hi.mem_extension]
      constructor
      · rintro ⟨a, hv, ha, hx⟩
        exact ⟨a, ⟨p, hp, hk, ha, hv⟩, hx⟩
      · rintro ⟨a, ⟨q, hq, -, ha, hv⟩, hx⟩
        obtain rfl := Option.some.inj (hp.symm.trans hq)
        exact ⟨a, hv, ha, hx⟩
  · next hk => simp [InputAtom, hk]

/-- Where the premise holds, the extensions have changed favourably. -/
theorem Justifies.favours (h : call.Justifies table i j) (hi : i.Faithful table)
    (hj : j.Faithful table) :
    call.signature.properties.Favours (call.signature.extensionAt ⟨call.input, i⟩)
      (call.signature.extensionAt ⟨call.input, j⟩) := by
  refine fun index => ⟨fun hd x hx => ?_, fun hd x hx => ?_⟩
  · obtain ⟨a, ha, hx⟩ := (mem_extensionAt hi).mp hx
    obtain ⟨p, hp, hk, hhead, -⟩ := id ha
    exact (mem_extensionAt hj).mpr ⟨a, ⟨p, hp, hk, hhead, h.keeps_true hi ha hd⟩, hx⟩
  · obtain ⟨a, ha, hx⟩ := (mem_extensionAt hj).mp hx
    obtain ⟨p, hp, hk, hhead, -⟩ := id ha
    exact (mem_extensionAt hi).mpr ⟨a, ⟨p, hp, hk, hhead, h.was_true hi ha hd⟩, hx⟩

end Invocation

end ExternalAtoms
