import ExternalAtoms.Proofs.Symbol.Content
import ExternalAtoms.Proofs.Symbol.Denotation

/-! # Hash-consing is canonical

In every table that requests build within the bound, a term has one place and one positive handle,
the look-up agrees with the arena, what was handed out for some content still reads as that content,
and positive handles are equal exactly when their trees are.
-/
namespace ExternalAtoms

/-- Run on the table, the request hands out the handle for this content. Besides the requests that
name their content, asking for a tuple or a head hands out a predicate constant. -/
def StoreRequest.Stores (table : SymbolTable) : StoreRequest → Symbol → Content → Prop
  | .constant text, s, c => (table.constant text).1 = s ∧ c = .constant text
  | .string text, s, c => (table.string text).1 = s ∧ c = .constant (Text.quote text)
  | .integer value, s, c => (table.integer value).1 = s ∧ c = .integer value
  | .function name args, s, c =>
    (table.function name args).1 = .ok s ∧ c = .application name args
  | .atom elements, s, c => (table.atom elements).1 = .ok s ∧ ∃ head args name,
      elements = head :: args ∧ table.name? head = some name ∧ c = .application name args
  | .tuple f, s, c => table.kind? f = some .function ∧ ∃ rest name,
      (table.tuple f).1 = some (s :: rest) ∧ table.name? f = some name ∧ c = .constant name
  | .head a, s, c => (table.head a).1 = some s ∧ ∃ name,
      table.name? a = some name ∧ c = .constant name
  | .isAtom _, _, _ | .negate _, _, _ => False

namespace SymbolTable
variable {table : SymbolTable}

namespace WellFormed

theorem stored_atom (h : WellFormed table) {head : Symbol} {args : List Symbol} {name : String}
    {s : Symbol} (hs : (table.atom (head :: args)).1 = .ok s) (hn : table.name? head = some name)
    (hb : (table.atom (head :: args)).2.size ≤ 2 ^ 31) :
    (table.atom (head :: args)).2.Stored s (.application name args) := by
  simp only [SymbolTable.atom] at hs hb ⊢
  cases hh : table.headName head with
  | error e => simp [hh] at hs
  | ok id =>
    simp only [hh] at hs hb ⊢
    rw [name?, (headName_ok_iff.mp hh).2.1] at hn
    exact h.stored_apply hn hs hb

theorem stored_tuple (h : WellFormed table) {f s : Symbol} {rest : List Symbol} {name : String}
    (hk : table.kind? f = some .function) (hs : (table.tuple f).1 = some (s :: rest))
    (hn : table.name? f = some name) (hb : (table.tuple f).2.size ≤ 2 ^ 31) :
    (table.tuple f).2.Stored s (.constant name) := by
  obtain ⟨t, ht, hk⟩ := Option.map_eq_some_iff.mp hk
  rw [name?, ht] at hn
  unfold SymbolTable.tuple at hs hb ⊢
  cases t with
  | constant id => simp [Term.kind] at hk
  | integer value => simp [Term.kind] at hk
  | function id args =>
    simp only [ht, Option.some.injEq, List.cons.injEq] at hs hb ⊢
    obtain ⟨rfl, -⟩ := hs
    exact h.stored_intern (Option.map_eq_some_iff.mpr ⟨name, hn, rfl⟩) hb

theorem stored_head (h : WellFormed table) {a s : Symbol} {name : String}
    (hs : (table.head a).1 = some s) (hn : table.name? a = some name)
    (hb : (table.head a).2.size ≤ 2 ^ 31) : (table.head a).2.Stored s (.constant name) := by
  unfold SymbolTable.head at hs hb ⊢
  cases ht : table.resolve? a with
  | none => simp [ht] at hs
  | some t =>
    rw [name?, ht] at hn
    cases t with
    | integer value => simp [ht] at hs
    | constant id =>
      simp only [ht] at hs ⊢
      split at hs
      · next hp =>
        obtain rfl := Option.some.inj hs
        rw [if_pos hp]
        refine ⟨a.isNegated_positive, content?_eq_some_iff.mpr ⟨.constant id, ?_, ?_⟩⟩
        · rwa [resolve?, a.index_positive]
        · exact Option.map_eq_some_iff.mpr ⟨name, hn, rfl⟩
      · simp at hs
    | function id args =>
      simp only [ht] at hs hb ⊢
      split at hs
      · next hp =>
        obtain rfl := Option.some.inj hs
        rw [if_pos hp] at hb ⊢
        exact h.stored_intern (Option.map_eq_some_iff.mpr ⟨name, hn, rfl⟩) hb
      · simp at hs

theorem stored_of_request (h : WellFormed table) {request : StoreRequest} {s : Symbol}
    {c : Content} (hs : request.Stores table s c) (hb : (request.run table).2.size ≤ 2 ^ 31) :
    (request.run table).2.Stored s c := by
  cases request with
  | constant text =>
    obtain ⟨rfl, rfl⟩ := hs
    exact h.stored_constant hb
  | string text =>
    obtain ⟨rfl, rfl⟩ := hs
    exact h.stored_constant hb
  | integer value =>
    obtain ⟨rfl, rfl⟩ := hs
    exact h.stored_integer hb
  | function name args =>
    obtain ⟨hs, rfl⟩ := hs
    exact h.stored_function hs hb
  | atom elements =>
    obtain ⟨hs, head, args, name, rfl, hn, rfl⟩ := hs
    exact h.stored_atom hs hn hb
  | tuple f =>
    obtain ⟨hk, rest, name, hs, hn, rfl⟩ := hs
    exact h.stored_tuple hk hs hn hb
  | head a =>
    obtain ⟨hs, name, hn, rfl⟩ := hs
    exact h.stored_head hs hn hb
  | isAtom s => exact hs.elim
  | negate s => exact hs.elim

end WellFormed

/-- Equal terms are stored once, nothing is lost or changed, and handles are as good as trees. -/
theorem hash_consing_canonical (hr : Reaches .empty table) (hb : table.size ≤ 2 ^ 31) :
    (∀ (i j : Nat) (t : Term), table.terms[i]? = some t → table.terms[j]? = some t → i = j) ∧
    (∀ (t : Term) (s : Symbol), table.handles[t]? = some s ↔
      s.isNegated = false ∧ table.resolve? s = some t) ∧
    (∀ request : StoreRequest, Extends table (request.run table).2) ∧
    (∀ (earlier : SymbolTable) (request : StoreRequest) (s : Symbol) (c : Content),
      Reaches .empty earlier → request.Stores earlier s c →
      Reaches (request.run earlier).2 table → table.ReadsAs s c) ∧
    (∀ s u : Symbol, table.isKnown s = true → table.isKnown u = true →
      s.isNegated = false → u.isNegated = false →
      ∃ a b, table.tree s = .ok a ∧ table.tree u = .ok b ∧ (s = u ↔ a = b)) := by
  have h := hr.wellFormed hb
  refine ⟨fun i j t => h.terms_injective, fun t s => h.handles_iff,
    fun request => run_extends request table, ?_, ?_⟩
  · intro earlier request s c hearlier hs hlater
    have hle := Nat.le_trans hlater.size_le hb
    have hwf := hearlier.wellFormed (Nat.le_trans (run_extends request earlier).size_le hle)
    exact (hlater.toExtends.stored (hwf.stored_of_request hs hle)).readsAs
  · intro s u hs hu hps hpu
    obtain ⟨a, ha⟩ := h.tree_ok hs
    obtain ⟨b, hb⟩ := h.tree_ok hu
    refine ⟨a, b, ha, hb, ?_, ?_⟩
    · rintro rfl
      exact Except.ok.inj (ha.symm.trans hb)
    · rintro rfl
      exact h.eq_of_tree hps hpu ha hb

/-- The atoms `p(7)` and `p(p)`, and a function refused for an argument of another table. -/
def twoAtoms : SymbolTable :=
  empty.runAll [.constant "p", .integer 7, .atom [⟨0⟩, ⟨2⟩], .function "q" [⟨40⟩],
    .function "p" [⟨0⟩], .negate ⟨4⟩]

theorem hash_consing_canonical_twoAtoms :
    Reaches .empty twoAtoms ∧ twoAtoms.size ≤ 2 ^ 31 ∧
      twoAtoms.ReadsAs ⟨4⟩ (.function "p" [⟨2⟩]) ∧
      ∃ a b, twoAtoms.tree ⟨4⟩ = .ok a ∧ twoAtoms.tree ⟨6⟩ = .ok b ∧ a ≠ b := by
  have hr : Reaches .empty twoAtoms := runAll_reaches _ _
  have hb : twoAtoms.size ≤ 2 ^ 31 := by decide
  obtain ⟨-, -, -, hread, htree⟩ := hash_consing_canonical hr hb
  refine ⟨hr, hb, ?_, ?_⟩
  · refine hread (empty.runAll [.constant "p", .integer 7]) (.atom [⟨0⟩, ⟨2⟩]) _ _
      (runAll_reaches _ _) ⟨by rfl, _, _, "p", rfl, by rfl, rfl⟩
      (runAll_reaches _ [.function "q" [⟨40⟩], .function "p" [⟨0⟩], .negate ⟨4⟩])
  · obtain ⟨a, b, ha, hb, hne⟩ := htree ⟨4⟩ ⟨6⟩ (by decide) (by decide) (by decide) (by decide)
    exact ⟨a, b, ha, hb, fun he => absurd (hne.mpr he) (by decide)⟩

end SymbolTable

end ExternalAtoms
