import ExternalAtoms.Proofs.Text.Token
import ExternalAtoms.Signature.Validate

/-! # Which signatures are well formed

Well-formedness is said once more without the order of the checks: how the predicate is spelled,
where a tuple input stands, and which positions the properties may name. Validation succeeds exactly
on the well-formed signatures, whichever plugin asks for it.
-/
namespace ExternalAtoms

namespace Text
variable {text : String}

/-- Any number of underscores, a letter from `a` to `z`, and then letters, digits, underscores and
primes, all of them of ASCII. -/
def SpellsIdentifier (text : String) : Prop :=
  ∃ (n : Nat) (first : Char) (rest : List Char),
    text.toList = List.replicate n '_' ++ first :: rest ∧ ('a' ≤ first ∧ first ≤ 'z') ∧
      ∀ c ∈ rest, ('A' ≤ c ∧ c ≤ 'Z') ∨ ('a' ≤ c ∧ c ≤ 'z') ∨ ('0' ≤ c ∧ c ≤ '9') ∨
        c = '_' ∨ c = '\''

theorem isIdentifierChar_iff {c : Char} : isIdentifierChar c = true ↔
    ('A' ≤ c ∧ c ≤ 'Z') ∨ ('a' ≤ c ∧ c ≤ 'z') ∨ ('0' ≤ c ∧ c ≤ '9') ∨ c = '_' ∨ c = '\'' := by
  simp [isIdentifierChar, Char.isAlphanum, isAlpha_iff, Char.isDigit, Char.le_def, ge_iff_le,
    or_assoc]

/-- The scan of an identifier accepts exactly what is spelled like one. -/
theorem isIdentifier_iff : isIdentifier text = true ↔ SpellsIdentifier text := by
  constructor
  · intro h
    obtain ⟨underscores, first, rest, htext, hunderscores, hfirst, hrest⟩ :=
      toList_of_isIdentifier h
    refine ⟨underscores.length, first, rest, ?_, isLower_iff.mp hfirst,
      fun c hc => isIdentifierChar_iff.mp (hrest c hc)⟩
    rw [htext, ← List.eq_replicate_of_mem hunderscores]
  · rintro ⟨n, first, rest, htext, hfirst, hrest⟩
    have hlower := isLower_iff.mpr hfirst
    have hstop : (first == '_') = false := by
      rw [beq_eq_false_iff_ne]
      rintro rfl
      exact absurd hlower (by decide)
    have hdrop : text.toList.dropWhile (· == '_') = first :: rest := by
      rw [htext, List.dropWhile_append_of_pos, List.dropWhile_cons_of_neg (by simp [hstop])]
      intro c hc
      rw [(List.mem_replicate.mp hc).2]
      rfl
    rw [isIdentifier, hdrop, isIdentifierBody, hlower, Bool.true_and, List.all_eq_true]
    exact fun c hc => isIdentifierChar_iff.mpr (hrest c hc)

end Text

namespace Signature
variable {s : Signature} {plugin : String}

structure WellFormed (s : Signature) : Prop where
  named : Text.SpellsIdentifier s.predicate
  tuple_last : ∀ index, s.inputs[index]? = some .tuple → index + 1 = s.inputs.length
  monotonic : ∀ index ∈ s.properties.monotonic, s.inputs[index]? = some .predicate
  antimonotonic : ∀ index ∈ s.properties.antimonotonic, s.inputs[index]? = some .predicate
  one_way : ∀ index ∈ s.properties.monotonic, index ∉ s.properties.antimonotonic
  outputs : ∀ index ∈ s.properties.finiteOutputs, index < s.outputArity

theorem checkPredicate_ok_iff :
    s.checkPredicate plugin = .ok () ↔ Text.SpellsIdentifier s.predicate := by
  rw [← Text.isIdentifier_iff, checkPredicate]
  split
  · next hempty =>
    rw [String.isEmpty_iff.mp hempty]
    simp [Text.isIdentifier, Text.isIdentifierBody]
  · split <;> simp [*]

theorem checkInputs_ok_iff : s.checkInputs = .ok () ↔
    ∀ index, s.inputs[index]? = some .tuple → index + 1 = s.inputs.length := by
  have hfirst : s.checkInputs = .ok () ↔ ∀ kind ∈ s.inputs.dropLast, kind ≠ .tuple := by
    have hnone : s.inputs.dropLast.findIdx? (· == .tuple) = none ↔
        ∀ kind ∈ s.inputs.dropLast, kind ≠ .tuple := by
      simp only [List.findIdx?_eq_none_iff, beq_eq_false_iff_ne]
    rw [← hnone, checkInputs, misplacedTuple?]
    split <;> simp [*]
  rw [hfirst]
  constructor
  · intro h index htuple
    have hlt := (List.getElem?_eq_some_iff.mp htuple).1
    by_contra hlast
    refine h .tuple (List.mem_iff_getElem?.mpr ⟨index, ?_⟩) rfl
    rwa [List.getElem?_dropLast, if_pos (by omega)]
  · rintro h kind hkind rfl
    obtain ⟨index, hindex⟩ := List.mem_iff_getElem?.mp hkind
    rw [List.getElem?_dropLast] at hindex
    split at hindex
    · next hlt =>
      have hlast := h index hindex
      omega
    · simp at hindex

theorem checkDeclared_ok_iff {property : Monotonicity} {indices : List Nat} :
    s.checkDeclared property indices = .ok () ↔
      ∀ index ∈ indices, s.inputs[index]? = some .predicate := by
  have hnone : indices.find? (fun index => s.inputs[index]? != some .predicate) = none ↔
      ∀ index ∈ indices, s.inputs[index]? = some .predicate := by simp
  rw [← hnone, checkDeclared]
  split <;> simp [*]

theorem checkConflict_ok_iff : s.checkConflict = .ok () ↔
    ∀ index ∈ s.properties.monotonic, index ∉ s.properties.antimonotonic := by
  have hnone : s.properties.monotonic.find? s.properties.isAntimonotonic = none ↔
      ∀ index ∈ s.properties.monotonic, index ∉ s.properties.antimonotonic := by
    simp [Properties.isAntimonotonic]
  rw [← hnone, checkConflict]
  split <;> simp [*]

theorem checkOutputs_ok_iff : s.checkOutputs = .ok () ↔
    ∀ index ∈ s.properties.finiteOutputs, index < s.outputArity := by
  have hnone : s.properties.finiteOutputs.find? (fun index => decide (s.outputArity ≤ index)) =
      none ↔ ∀ index ∈ s.properties.finiteOutputs, index < s.outputArity := by simp
  rw [← hnone, checkOutputs]
  split <;> simp [*]

/-- The checks pass in turn exactly when every one of them passes. -/
theorem bind_ok_unit_iff {first second : Except SignatureError Unit} :
    (first >>= fun _ => second) = .ok () ↔ first = .ok () ∧ second = .ok () := by
  cases first <;> simp [bind, Except.bind]

theorem validate_ok_iff : s.validate plugin = .ok () ↔ s.WellFormed := by
  simp only [validate, bind_ok_unit_iff, checkPredicate_ok_iff, checkInputs_ok_iff,
    checkDeclared_ok_iff, checkConflict_ok_iff, checkOutputs_ok_iff]
  constructor
  · rintro ⟨hnamed, htuple, hmonotonic, hantimonotonic, honeWay, houtputs⟩
    exact ⟨hnamed, htuple, hmonotonic, hantimonotonic, honeWay, houtputs⟩
  · rintro ⟨hnamed, htuple, hmonotonic, hantimonotonic, honeWay, houtputs⟩
    exact ⟨hnamed, htuple, hmonotonic, hantimonotonic, honeWay, houtputs⟩

end Signature

end ExternalAtoms
