import ExternalAtoms.Proofs.Bundled.TextAlgebra

/-! # When a result is a string

Joining and cutting give a string when an operand is one, and otherwise store the resulting text as
it stands. Whether a constant is a string shows in its text alone, so a text that is put together
from bare operands is a string nevertheless if it happens to stand between quotes.
-/
namespace ExternalAtoms
open SymbolTable Evaluator Sample

namespace Bundled
variable {final : SymbolTable} {xs : List Symbol} {x k n s : Symbol}

theorem offers_joinOperands : testPlugin.Offers "testConcat" [.tuple] joinOperands :=
  ⟨_, List.mem_cons_self, rfl, rfl, rfl, rfl⟩

/-- A text is stored as a string on demand, and is one without it if it stands between quotes. -/
theorem isString_of_stored (hw : WellFormed final) {text : String} {quoted : Bool}
    (h : final.constant (if quoted then Text.quote text else text) = (s, final)) :
    final.isString s = true ↔ quoted = true ∨ Text.isQuoted text = true := by
  rw [hw.isString_of_constant h]
  cases quoted <;> simp [Text.isQuoted_quote]

section Results
variable (hw : WellFormed final) (hb : final.size ≤ 2 ^ 31)
include hw hb

theorem isString_join (h : testPlugin.Yields final "testConcat" xs s) :
    final.isString s = true ↔ (∃ x ∈ xs, final.isString x = true) ∨
      Text.isQuoted (joinedText final xs) = true := by
  have hstored := join_text hb (List.any · Operand.quoted) offers_joinOperands (fun _ => rfl) h
  rw [isString_of_stored hw hstored]
  simp

theorem isString_substr (h : stringPlugin.Yields final "substr" [x, k, n] s)
    {start count : Int64} (hstart : final.integer? k = some start)
    (hcount : final.integer? n = some count) :
    final.isString s = true ↔
      final.isString x = true ∨ Text.isQuoted (cutText (final.plainText x) start count) = true :=
  isString_of_stored hw (substr_text hb h hstart hcount)

end Results

theorem not_mem_joinedText {c : Char} (h : ∀ x ∈ xs, c ∉ (final.plainText x).toList) :
    c ∉ (joinedText final xs).toList := by
  rw [joinedText, String.toList_join]
  simpa using h

theorem not_mem_cutText {c : Char} {text : String} (h : c ∉ text.toList) (start count : Int64) :
    c ∉ (cutText text start count).toList := by
  rw [cutText, String.toList_ofList]
  exact fun hmem => h (List.mem_of_mem_drop (List.mem_of_mem_take hmem))

/-- Joined operands make a string exactly if one of them is one or the joined text stands between
quotes, and a part of an operand exactly if the operand is one or the part stands between quotes.
When no bare operand has a quote in it, what is put together is a string exactly if it is made of
one. -/
theorem string_results (hr : Reaches .empty final) (hb : final.size ≤ 2 ^ 31) :
    (∀ c : Evaluator.Call, c.LeadsTo testPlugin final → c.predicate = "testConcat" →
      (∀ x ∈ c.query.input, c.table.Usable x) → ∃ s, c.Outputs s) ∧
    (∀ xs s, testPlugin.Yields final "testConcat" xs s →
      (final.isString s = true ↔ (∃ x ∈ xs, final.isString x = true) ∨
        Text.isQuoted (String.join (xs.map final.plainText)) = true) ∧
      ((∀ x ∈ xs, final.isString x = false → '"' ∉ (final.plainText x).toList) →
        (final.isString s = true ↔ ∃ x ∈ xs, final.isString x = true))) ∧
    ∀ x k n start count s, final.integer? k = some start → final.integer? n = some count →
      stringPlugin.Yields final "substr" [x, k, n] s →
      (final.isString s = true ↔ final.isString x = true ∨
        Text.isQuoted (cutText (final.plainText x) start count) = true) ∧
      ((final.isString x = false → '"' ∉ (final.plainText x).toList) →
        (final.isString s = true ↔ final.isString x = true)) := by
  have hw := hr.wellFormed hb
  refine ⟨fun c h hname husable => join_outputs hb (List.any · Operand.quoted)
    offers_joinOperands (fun _ => rfl) h hname husable,
    fun xs s hs => ⟨isString_join hw hb hs, fun hbare => ?_⟩,
    fun x k n start count s hstart hcount hs =>
      ⟨isString_substr hw hb hs hstart hcount, fun hbare => ?_⟩⟩
  · rw [isString_join hw hb hs, or_iff_left_iff_imp]
    -- were all operands bare, there would be no quote in the joined text
    intro hquoted
    by_contra hnone
    have hnot : ∀ x ∈ xs, final.isString x = false := fun x hx =>
      Bool.eq_false_iff.mpr fun hstring => hnone ⟨x, hx, hstring⟩
    have hplain := not_mem_joinedText fun x hx => hbare x hx (hnot x hx)
    rw [Text.not_isQuoted_of_not_mem hplain] at hquoted
    cases hquoted
  · rw [isString_substr hw hb hs hstart hcount, or_iff_left_iff_imp]
    intro hquoted
    by_contra hnot
    have hplain := not_mem_cutText (hbare (Bool.eq_false_iff.mpr hnot)) start count
    rw [Text.not_isQuoted_of_not_mem hplain] at hquoted
    cases hquoted

def joining (requests : List StoreRequest) (input : List Symbol) : Evaluator.Call :=
  ⟨tester, "testConcat", ⟨input, .empty⟩, SymbolTable.empty.runAll requests⟩

theorem joining_leadsTo (requests : List StoreRequest) (input : List Symbol) :
    (joining requests input).LeadsTo testPlugin (joining requests input).outcome.table :=
  ⟨tester_loads, .empty (runAll_reaches _ _), .refl⟩

theorem joining_reaches (requests : List StoreRequest) (input : List Symbol) :
    Reaches .empty (joining requests input).outcome.table :=
  (runAll_reaches _ _).trans (joining requests input).outcome_reaches

/-- A string and a bare constant make a string. -/
theorem string_results_halfQuoted :
    let c := joining [.string "a", .constant "b"] [⟨0⟩, ⟨2⟩]
    ∃ s, c.Outputs s ∧ c.outcome.table.isString s = true := by
  intro c
  have hb : c.outcome.table.size ≤ 2 ^ 31 := by decide +kernel
  have hleads : c.LeadsTo testPlugin c.outcome.table := joining_leadsTo _ _
  obtain ⟨houtputs, hjoined, -⟩ := string_results (joining_reaches _ _) hb
  obtain ⟨s, hs⟩ := houtputs c hleads rfl (by decide +kernel)
  have hstring : c.outcome.table.isString ⟨0⟩ = true := by decide +kernel
  exact ⟨s, hs, (hjoined _ s ⟨c, hleads, rfl, rfl, hs⟩).1.mpr
    (Or.inl ⟨⟨0⟩, List.mem_cons_self, hstring⟩)⟩

/-- Two bare quotes make an empty string. -/
theorem bare_quotes_make_string :
    let c := joining [.constant "\""] [⟨0⟩, ⟨0⟩]
    ∃ s, testPlugin.Yields c.outcome.table "testConcat" [⟨0⟩, ⟨0⟩] s ∧
      ¬(c.outcome.table.isString s = true ↔
        ∃ x ∈ [(⟨0⟩ : Symbol), ⟨0⟩], c.outcome.table.isString x = true) := by
  intro c
  have hb : c.outcome.table.size ≤ 2 ^ 31 := by decide +kernel
  have hleads : c.LeadsTo testPlugin c.outcome.table := joining_leadsTo _ _
  obtain ⟨s, hs⟩ := join_outputs hb (List.any · Operand.quoted) offers_joinOperands
    (fun _ => rfl) hleads rfl (by decide +kernel)
  have hyields : testPlugin.Yields c.outcome.table "testConcat" [⟨0⟩, ⟨0⟩] s :=
    ⟨c, hleads, rfl, rfl, hs⟩
  have hquoted : Text.isQuoted (joinedText c.outcome.table [⟨0⟩, ⟨0⟩]) = true := by decide +kernel
  have hbare : ¬∃ x ∈ [(⟨0⟩ : Symbol), ⟨0⟩], c.outcome.table.isString x = true := by
    decide +kernel
  have hw := (joining_reaches _ _).wellFormed hb
  exact ⟨s, hyields, fun h => hbare (h.mp ((isString_join hw hb hyields).mpr (Or.inr hquoted)))⟩

end Bundled

end ExternalAtoms
