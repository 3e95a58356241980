import ExternalAtoms.Proofs.Symbol.Alike

/-! # Rendering is total

A function is stored after its arguments, so the way from a handle to the arguments of its term
comes to an end, whatever handles the requests were given. The written form of a handle is given by
rules that know no depth and no text for a name but its own. Rendering finds this form for every
handle that the table knows, and for any other it has an error with the index of that handle.
-/
namespace ExternalAtoms

namespace Tree

theorem argumentsText_eq_intercalate (args : List Tree) :
    argumentsText args = ",".intercalate (args.map text) := by
  induction args with
  | nil => rfl
  | cons arg rest ih =>
    cases rest with
    | nil => rw [argumentsText, List.map_singleton, String.intercalate_singleton]
    | cons other more => simp [argumentsText, ih]

theorem text_function (name : String) (args : List Tree) :
    (function name args).text = name ++ "(" ++ ",".intercalate (args.map text) ++ ")" := by
  rw [text, argumentsText_eq_intercalate]

end Tree

namespace SymbolTable
variable {table later : SymbolTable} {arg s : Symbol} {form form' text : String}

/-- The table comes from the empty one by requests and by names that are interned on their own. A
request may be given any handle, also one of another table. -/
inductive Arises : SymbolTable → Prop
  | empty : Arises .empty
  | store {table : SymbolTable} (request : StoreRequest) (h : Arises table) :
      Arises (request.run table).2
  | name {table : SymbolTable} (text : String) (h : Arises table) :
      Arises (table.internName text).2

theorem Arises.grows (h : Arises table) : Grows .empty table := by
  induction h with
  | empty => exact .refl
  | store request _ ih => exact ih.trans (run_grows (ih.admits WellFormed.empty.admits) request)
  | name text _ ih => exact .name text ih

theorem Arises.wellFormed (h : Arises table) (hb : table.size ≤ 2 ^ 31) : WellFormed table :=
  WellFormed.empty.grows h.grows hb

theorem Arises.reaches (h : Arises table) (hl : Reaches table later) : Arises later := by
  induction hl with
  | refl => exact h
  | store request _ ih => exact .store request ih

/-- The first handle is an argument of the term of the second. Rendering goes from a handle to these
and to no others. -/
def ArgumentOf (table : SymbolTable) (arg s : Symbol) : Prop := arg ∈ table.arguments s

theorem argumentOf_iff : table.ArgumentOf arg s ↔
    ∃ name args, table.resolve? s = some (.function name args) ∧ arg ∈ args := by
  rw [ArgumentOf, arguments]
  cases table.resolve? s with
  | none => simp
  | some t => cases t <;> simp

/-- An argument is older than its function, so no way down goes on for ever. -/
theorem Admits.wellFounded_argumentOf (h : Admits table) : WellFounded table.ArgumentOf := by
  refine Subrelation.wf (r := fun arg s => arg.index < s.index) ?_ (measure Symbol.index).wf
  intro arg s harg
  obtain ⟨name, args, hr, hmem⟩ := argumentOf_iff.mp harg
  obtain ⟨-, -, hargs⟩ := h _ _ hr
  exact (hargs arg hmem).2

/-- The form in which the term of a handle is written, without a sign. There is no rule for a name
without a text or for a handle without a term. -/
inductive Written (table : SymbolTable) : Symbol → String → Prop
  | constant {s : Symbol} {name : String} (hs : table.content? s = some (.constant name)) :
      Written table s name
  | integer {s : Symbol} {value : Int64} (hs : table.content? s = some (.integer value)) :
      Written table s (Tree.integerText value.toInt)
  | function {s : Symbol} {name : String} {args : List Symbol} {forms : List String}
      (hs : table.content? s = some (.function name args)) (hlength : args.length = forms.length)
      (hargs : ∀ p ∈ args.zip forms, Written table p.1 p.2) :
      Written table s (name ++ "(" ++ ",".intercalate forms ++ ")")

namespace Written

theorem known (h : table.Written s form) : table.isKnown s = true := by
  have hcontent : ∃ c, table.content? s = some c := by
    cases h with
    | constant hs => exact ⟨_, hs⟩
    | integer hs => exact ⟨_, hs⟩
    | function hs => exact ⟨_, hs⟩
  obtain ⟨c, hc⟩ := hcontent
  obtain ⟨t, ht, -⟩ := content?_eq_some_iff.mp hc
  exact isKnown_iff.mpr ⟨t, ht⟩

theorem unique (h : table.Written s form) (h' : table.Written s form') : form = form' := by
  induction h generalizing form' with
  | constant hs =>
    cases h' with
    | constant hs' => exact Content.constant.inj (Option.some.inj (hs.symm.trans hs'))
    | integer hs' => simp [hs] at hs'
    | function hs' => simp [hs] at hs'
  | integer hs =>
    cases h' with
    | constant hs' => simp [hs] at hs'
    | integer hs' => rw [Content.integer.inj (Option.some.inj (hs.symm.trans hs'))]
    | function hs' => simp [hs] at hs'
  | @function s name args forms hs hlength _ ih =>
    cases h' with
    | constant hs' => simp [hs] at hs'
    | integer hs' => simp [hs] at hs'
    | @function _ name' args' forms' hs' hlength' hargs' =>
      -- one term has one list of arguments, and each of these has one form by induction
      obtain ⟨rfl, rfl⟩ := Content.function.inj (Option.some.inj (hs.symm.trans hs'))
      have hplaces : List.Forall₂ table.Written args forms' :=
        List.forall₂_iff_zip.mpr ⟨hlength', fun hmem => hargs' _ hmem⟩
      have hforms : forms = forms' := by
        refine eq_of_forall₂ (List.forall₂_iff_zip.mpr ⟨hlength, fun hmem => ?_⟩) hplaces
        exact fun form' hform => ih _ hmem hform
      rw [hforms]

end Written

theorem render_unknown (hs : table.isKnown s = false) :
    table.render s = .error (.unknownSymbol s.index) := by
  rw [render, tree_unknown (resolve?_eq_none_iff.mpr hs)]
  rfl

namespace WellFormed
variable (h : WellFormed table)
include h

theorem written_of_tree {a : Tree} (ha : table.tree s = .ok a) : table.Written s a.text := by
  induction s using h.admits.wellFounded_argumentOf.induction generalizing a with
  | h s ih =>
    obtain ⟨c, hc, hdenotes⟩ := h.denotes_of_tree ha
    cases hdenotes with
    | constant name => exact .constant hc
    | integer value => exact .integer hc
    | @function name args trees _ htrees =>
      have hplaces := mapM_eq_ok_iff.mp htrees
      have hforms : List.Forall₂ table.Written args (trees.map Tree.text) := by
        rw [List.forall₂_map_right_iff, List.forall₂_iff_zip]
        refine ⟨hplaces.length_eq, fun {arg tree} hmem => ?_⟩
        have harg : table.ArgumentOf arg s := by
          obtain ⟨-, -, -, hargs⟩ := readsAs_of_content? hc
          rw [ArgumentOf, hargs]
          exact (List.of_mem_zip hmem).1
        exact ih arg harg ((List.forall₂_iff_zip.mp hplaces).2 hmem)
      obtain ⟨hlength, hargs⟩ := List.forall₂_iff_zip.mp hforms
      rw [Tree.text_function]
      exact .function hc hlength fun p hp => hargs hp

theorem render_eq_ok_iff : table.render s = .ok text ↔
    ∃ form, table.Written s form ∧ text = (if s.isNegated then "-" else "") ++ form := by
  constructor
  · intro hs
    cases ha : table.tree s with
    | error e => simp [render, ha, bind, Except.bind] at hs
    | ok a =>
      exact ⟨a.text, h.written_of_tree ha, Except.ok.inj (hs.symm.trans (render_of_tree ha))⟩
  · rintro ⟨form, hform, rfl⟩
    obtain ⟨a, ha⟩ := h.tree_ok hform.known
    rw [render_of_tree ha, hform.unique (h.written_of_tree ha)]

theorem render_ok (hs : table.isKnown s = true) : ∃ text, table.render s = .ok text := by
  obtain ⟨a, ha⟩ := h.tree_ok hs
  exact ⟨_, render_of_tree ha⟩

theorem render_eq_error_iff {e : StoreError} : table.render s = .error e ↔
    table.isKnown s = false ∧ e = .unknownSymbol s.index := by
  constructor
  · intro hs
    cases hknown : table.isKnown s with
    | true =>
      obtain ⟨text, htext⟩ := h.render_ok hknown
      simp [htext] at hs
    | false => exact ⟨rfl, Except.error.inj (hs.symm.trans (render_unknown hknown))⟩
  · rintro ⟨hknown, rfl⟩
    exact render_unknown hknown

end WellFormed

/-- Functions stand over positive and older arguments, so that going down to the arguments ends.
Every known handle is rendered, in the form that the rules give with the texts of the names, and
for every other handle the error has the index of that handle. -/
theorem rendering_total (ht : Arises table) (hb : table.size ≤ 2 ^ 31) :
    (∀ (i : Nat) (name : NameId) (args : List Symbol),
      table.terms[i]? = some (.function name args) →
        args ≠ [] ∧ ∀ arg ∈ args, arg.isNegated = false ∧ arg.index < i) ∧
    WellFounded table.ArgumentOf ∧
    (∀ s, table.isKnown s = true → ∃ text, table.render s = .ok text) ∧
    (∀ s text, table.render s = .ok text ↔
      ∃ form, table.Written s form ∧ text = (if s.isNegated then "-" else "") ++ form) ∧
    ∀ s e, table.render s = .error e ↔ table.isKnown s = false ∧ e = .unknownSymbol s.index := by
  have h := ht.wellFormed hb
  exact ⟨fun i name args hi => (h.admissible hi).2, h.admits.wellFounded_argumentOf,
    fun s => h.render_ok, fun s text => h.render_eq_ok_iff, fun s e => h.render_eq_error_iff⟩

/-- The function `f` was refused over the handle that it was to get itself, then stored over `a`,
and only then stored over that handle. The name `g` has no term. -/
def nestedAtom : SymbolTable :=
  (empty.internName "g").2.runAll
    [.constant "a", .function "f" [⟨2⟩], .function "f" [⟨0⟩], .function "f" [⟨2⟩], .negate ⟨4⟩]

theorem rendering_total_nestedAtom :
    Arises nestedAtom ∧ nestedAtom.size ≤ 2 ^ 31 ∧
      nestedAtom.terms[2]? = some (.function ⟨2⟩ [⟨2⟩]) ∧ (⟨2⟩ : Symbol).index < 2 ∧
      nestedAtom.isKnown ⟨5⟩ = true ∧ nestedAtom.Written ⟨5⟩ "f(f(a))" ∧
      nestedAtom.isKnown ⟨41⟩ = false ∧ nestedAtom.render ⟨41⟩ = .error (.unknownSymbol 20) := by
  have ha : Arises nestedAtom := (Arises.name "g" .empty).reaches (runAll_reaches _ _)
  have hb : nestedAtom.size ≤ 2 ^ 31 := by decide
  have hterm : nestedAtom.terms[2]? = some (.function ⟨2⟩ [⟨2⟩]) := by rfl
  have hrender : nestedAtom.render ⟨5⟩ = .ok "-f(f(a))" := by rfl
  obtain ⟨hargs, -, -, hok, herror⟩ := rendering_total ha hb
  obtain ⟨-, holder⟩ := hargs 2 _ _ hterm
  obtain ⟨form, hform, htext⟩ := (hok ⟨5⟩ _).mp hrender
  have hsame : form = "f(f(a))" := (String.append_right_inj "-").mp htext.symm
  refine ⟨ha, hb, hterm, (holder ⟨2⟩ (by simp)).2, by decide, hsame ▸ hform, by decide, ?_⟩
  exact (herror ⟨41⟩ _).mpr ⟨by decide, by rfl⟩

end SymbolTable

end ExternalAtoms
