import ExternalAtoms.Bundled.Plugins
import ExternalAtoms.Proofs.Bundled.Counting
import ExternalAtoms.Proofs.Bundled.Strings
import ExternalAtoms.Proofs.Bundled.Submission

/-! # What the bundled plugins guarantee

A true tuple of a bundled atom stays true wherever its premise holds, over the same assigned atoms.
All but one of the bundled atoms submit no nogoods.
-/
namespace ExternalAtoms
open SymbolTable

/-- Where the premise of an evaluation holds, over the same assigned atoms, its true tuples are
true again. -/
def ExternalAtom.Persists (a : ExternalAtom) (final : SymbolTable) : Prop :=
  ∀ {input : List Symbol} {i j : Interpretation} {table later : SymbolTable}
    {answer answer' : Answer}, a.Answers final ⟨input, i⟩ table answer →
    a.Answers final ⟨input, j⟩ later answer' →
    Invocation.Justifies ⟨a.signature, input⟩ final i j → (∀ b, b ∈ i.truths ↔ b ∈ j.truths) →
    ∀ t ∈ answer.trueTuples, t ∈ answer'.trueTuples

theorem ExternalAtom.Reports.toPersists {a : ExternalAtom} {final : SymbolTable}
    {R : List Symbol → (Nat → TupleSet) → Set Tuple} (h : a.Reports final R)
    (hR : ∀ input, a.signature.properties.Respects (R input)) (hb : final.size ≤ 2 ^ 31) :
    a.Persists final := by
  intro input i j table later answer answer' hi hj hjust _ t ht
  exact h.persists (hR input) hb hi hj hjust ht

/-- A relation on the input alone respects every declaration. -/
theorem ExternalAtom.Reports.persists_of_input {a : ExternalAtom} {final : SymbolTable}
    {R : List Symbol → Set Tuple} (h : a.Reports final fun input _ => R input)
    (hb : final.size ≤ 2 ^ 31) : a.Persists final :=
  h.toPersists (fun input => .const _ (R input)) hb

namespace Bundled
variable {a : ExternalAtom} {final : SymbolTable}

def bundledAtoms : List ExternalAtom := stringPlugin.atoms ++ testPlugin.atoms

/-- Every bundled atom keeps its true tuples where the premise holds. -/
theorem persists_of_mem (ha : a ∈ bundledAtoms) (hb : final.size ≤ 2 ^ 31) : a.Persists final := by
  simp only [bundledAtoms, stringPlugin, testPlugin, List.mem_append, List.mem_cons,
    List.not_mem_nil, or_false] at ha
  rcases ha with (rfl | rfl | rfl) | rfl | rfl | rfl | rfl | rfl | rfl | rfl | rfl | rfl
  · exact ExternalAtom.Reports.persists_of_input (concat_reports rfl) hb
  · exact ExternalAtom.Reports.persists_of_input (strlen_reports rfl) hb
  · exact ExternalAtom.Reports.persists_of_input (substr_reports rfl) hb
  · exact ExternalAtom.Reports.persists_of_input (joinOperands_reports rfl) hb
  · refine ExternalAtom.Reports.toPersists (setMinus_reports rfl rfl rfl) ?_ hb
    exact fun input => differenceOf_respects input (by decide) (by decide)
  · refine ExternalAtom.Reports.toPersists (setMinusTrueAtoms_reports rfl rfl rfl) ?_ hb
    exact fun input => differenceOf_respects input (by decide) (by decide)
  · refine ExternalAtom.Reports.toPersists (setMinusLearn_reports rfl rfl rfl) ?_ hb
    exact fun input => differenceOf_respects input (by decide) (by decide)
  · refine ExternalAtom.Reports.toPersists (identity_reports rfl rfl) ?_ hb
    exact fun input => extensionOf_respects input (by decide) (by decide)
  · exact ExternalAtom.Reports.persists_of_input (identityOfConstant_reports rfl) hb
  · exact ExternalAtom.Reports.persists_of_input (smallerThan_reports rfl) hb
  · intro input i j table later answer answer' hi hj hjust hsame t ht
    rwa [← isEmpty_same rfl rfl rfl hb hi hj hjust hsame rfl]
  · intro input i j table later answer answer' hi hj hjust hsame t ht
    rwa [← numberOfBalls_same rfl rfl rfl hb hi hj hjust hsame rfl]

section Silent
open Retrieval
variable {q : Query}

theorem silent_argument (index : Nat) (predicate message : String) :
    (argument q index predicate message).Silent := by
  unfold argument
  split
  · exact .pure _
  · exact .fail _

theorem silent_integerArgument (index : Nat) (predicate : String) :
    (integerArgument q index predicate).Silent := by
  refine Silent.bind (fun _ _ => rfl) fun table => ?_
  split
  · exact .pure _
  · exact .fail _

theorem silent_readOperand (s : Symbol) : (readOperand s).Silent :=
  Silent.bind (fun _ _ => rfl) fun _ _ _ => rfl

theorem silent_readOperands (input : List Symbol) : (readOperands input).Silent :=
  Silent.bind (fun _ _ => rfl) fun _ _ _ => rfl

theorem silent_storeText (text : String) (quoted : Bool) : (storeText text quoted).Silent := by
  cases quoted <;> exact fun _ _ => rfl

theorem silent_gather (first second : Symbol) (atoms : List Symbol) :
    (gather first second atoms).Silent := by
  induction atoms with
  | nil => exact .pure _
  | cons b rest ih =>
    exact Silent.bind (fun _ _ => rfl) fun _ => Silent.bind (fun _ _ => rfl) fun _ =>
      ih.bind fun _ => .pure _

theorem silent_countAtoms (predicate : Symbol) (tally : Tally) (entries : List (Symbol × Truth)) :
    (countAtoms predicate tally entries).Silent := by
  induction entries generalizing tally with
  | nil => exact .pure _
  | cons entry rest ih => exact Silent.bind (fun _ _ => rfl) fun _ => ih _

/-- The bundled atoms submit no nogoods, except the one that is made for it. -/
theorem silent_of_mem (ha : a ∈ bundledAtoms) :
    (a.retrieve q).Silent ∨ a.retrieve = setMinusLearn := by
  by_cases hl : a.retrieve = setMinusLearn
  · exact Or.inr hl
  refine Or.inl ?_
  simp only [bundledAtoms, stringPlugin, testPlugin, List.mem_append, List.mem_cons,
    List.not_mem_nil, or_false] at ha
  rcases ha with (rfl | rfl | rfl) | rfl | rfl | rfl | rfl | rfl | rfl | rfl | rfl | rfl
  · exact (silent_readOperands _).bind fun _ => (silent_storeText _ true).bind fun _ => .pure _
  · exact (silent_argument _ _ _).bind fun _ => (silent_readOperand _).bind fun _ =>
      Silent.bind (fun _ _ => rfl) fun _ => .pure _
  · exact (silent_argument _ _ _).bind fun _ => (silent_readOperand _).bind fun _ =>
      (silent_integerArgument _ _).bind fun _ => (silent_integerArgument _ _).bind fun _ =>
      (silent_storeText _ _).bind fun _ => .pure _
  · exact (silent_readOperands _).bind fun _ => (silent_storeText _ _).bind fun _ => .pure _
  · exact (silent_argument _ _ _).bind fun _ => (silent_argument _ _ _).bind fun _ => .pure _
  · exact (silent_argument _ _ _).bind fun _ => (silent_argument _ _ _).bind fun _ =>
      (silent_gather _ _ _).bind fun _ => .pure _
  · exact absurd rfl hl
  · refine (silent_argument _ _ _).bind fun _ => ?_
    dsimp only
    split
    · exact .pure _
    · exact .fail _
  · exact (silent_argument _ _ _).bind fun _ => .pure _
  · exact (silent_integerArgument _ _).bind fun _ => (silent_integerArgument _ _).bind fun _ =>
      .pure _
  · exact (silent_argument _ _ _).bind fun _ => (silent_countAtoms _ _ _).bind fun _ => .pure _
  · exact (silent_argument _ _ _).bind fun _ => (silent_integerArgument _ _).bind fun _ =>
      (silent_integerArgument _ _).bind fun _ => (silent_countAtoms _ _ _).bind fun _ => .pure _

end Silent

end Bundled

end ExternalAtoms
