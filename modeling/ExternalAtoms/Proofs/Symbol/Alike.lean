import ExternalAtoms.Proofs.Symbol.Rendering

/-! # The same symbol in two tables

Two tables may number the same terms differently. Handles of them are alike when they have the same
sign and denote the same tree. Then the same can be read off both, and what is made from alike
handles is alike again. In a well-formed table only one handle is like a given one.
-/
namespace ExternalAtoms

/-- Every member of either collection has a counterpart in the other. -/
structure Paired {α β : Type} (R : α → β → Prop) (P : α → Prop) (Q : β → Prop) : Prop where
  forth : ∀ a, P a → ∃ b, Q b ∧ R a b
  back : ∀ b, Q b → ∃ a, P a ∧ R a b

namespace Paired
variable {α β : Type} {R S : α → β → Prop} {P : α → Prop} {Q : β → Prop}

theorem symm {T : β → α → Prop} (h : Paired R P Q) (hRT : ∀ a b, R a b → T b a) :
    Paired T Q P where
  forth b hb := (h.back b hb).imp fun a ha => ⟨ha.1, hRT a b ha.2⟩
  back a ha := (h.forth a ha).imp fun b hb => ⟨hb.1, hRT a b hb.2⟩

theorem imp (h : Paired R P Q) (hRS : ∀ a b, R a b → S a b) : Paired S P Q where
  forth a ha := (h.forth a ha).imp fun b hb => ⟨hb.1, hRS a b hb.2⟩
  back b hb := (h.back b hb).imp fun a ha => ⟨ha.1, hRS a b ha.2⟩

theorem of_none (hP : ∀ a, ¬P a) (hQ : ∀ b, ¬Q b) : Paired R P Q :=
  ⟨fun a ha => absurd ha (hP a), fun b hb => absurd hb (hQ b)⟩

end Paired

namespace Content
variable {R : Symbol → Symbol → Prop} {table : SymbolTable}

/-- The same content over related arguments. -/
inductive Related (R : Symbol → Symbol → Prop) : Content → Content → Prop
  | constant (text : String) : Related R (.constant text) (.constant text)
  | integer (value : Int64) : Related R (.integer value) (.integer value)
  | function (name : String) {args args' : List Symbol} (h : List.Forall₂ R args args') :
      Related R (.function name args) (.function name args')

theorem related_application (name : String) {args args' : List Symbol}
    (h : List.Forall₂ R args args') :
    Related R (application name args) (application name args') := by
  cases h with
  | nil => exact .constant name
  | cons hfirst hrest => exact .function name (.cons hfirst hrest)

/-- The tree that is made from the content, whose arguments are positive. -/
inductive Denotes (table : SymbolTable) : Content → Tree → Prop
  | constant (name : String) : Denotes table (.constant name) (.constant name)
  | integer (value : Int64) : Denotes table (.integer value) (.integer value)
  | function (name : String) {args : List Symbol} {trees : List Tree}
      (hpositive : ∀ arg ∈ args, arg.isNegated = false)
      (htrees : args.mapM table.tree = .ok trees) :
      Denotes table (.function name args) (.function name trees)

end Content

namespace SymbolTable
variable {table table' table'' later later' : SymbolTable} {s s' s'' u u' a a' p p' : Symbol}
  {args args' : List Symbol}

theorem content?_of_name? {text : String} (h : WellFormed table) (hs : table.name? s = some text) :
    table.content? s = some (.application text (table.arguments s)) := by
  unfold name? at hs
  rw [arguments]
  split at hs
  · next id hr =>
    rw [hr]
    exact content?_constant_iff.mpr ⟨id, hr, hs⟩
  · next id args hr =>
    rw [hr]
    obtain ⟨arg, rest, rfl⟩ := List.exists_cons_of_ne_nil (h.admissible hr).2.1
    exact content?_function_iff.mpr ⟨id, hr, hs⟩
  · simp at hs

theorem isPredicateConstant_iff : table.isPredicateConstant p = true ↔
    ∃ text, table.content? p = some (.constant text) ∧ Text.isIdentifier text = true := by
  rw [isPredicateConstant]
  constructor
  · intro hp
    split at hp
    · next id hr =>
      obtain ⟨text, hid, hidentifier⟩ := isPredicateName_iff.mp hp
      exact ⟨text, content?_constant_iff.mpr ⟨id, hr, hid⟩, hidentifier⟩
    · simp at hp
  · rintro ⟨text, hc, hidentifier⟩
    obtain ⟨id, hr, hid⟩ := content?_constant_iff.mp hc
    rw [hr]
    exact isPredicateName_iff.mpr ⟨text, hid, hidentifier⟩

theorem name?_eq_some_iff {text : String} : table.name? a = some text ↔
    ∃ id t, table.resolve? a = some t ∧ t.IsNamed id ∧ table.names.resolve? id = some text := by
  rw [name?]
  cases table.resolve? a with
  | none => simp
  | some t => cases t <;> simp [Term.IsNamed]

theorem headedBy_iff : table.HeadedBy a p ↔ ∃ text, table.Stored p (.constant text) ∧
    table.name? a = some text ∧ Text.isIdentifier text = true := by
  constructor
  · rintro ⟨hp, id, t, hr, hid, ha, hnamed⟩
    obtain ⟨text, htext, hidentifier⟩ := isPredicateName_iff.mp hid
    exact ⟨text, ⟨hp, content?_constant_iff.mpr ⟨id, hr, htext⟩⟩,
      name?_eq_some_iff.mpr ⟨id, t, ha, hnamed, htext⟩, hidentifier⟩
  · rintro ⟨text, ⟨hp, hc⟩, ha, hidentifier⟩
    obtain ⟨id, hr, hid⟩ := content?_constant_iff.mp hc
    obtain ⟨id', t, hr', hnamed, hid'⟩ := name?_eq_some_iff.mp ha
    obtain rfl := NameTable.resolve?_injective hid' hid
    exact ⟨hp, id', t, hr, isPredicateName_iff.mpr ⟨text, hid, hidentifier⟩, hr', hnamed⟩

theorem WellFormed.denotes_of_tree (h : WellFormed table) {tree : Tree}
    (hs : table.tree s = .ok tree) : ∃ c, table.content? s = some c ∧ c.Denotes table tree := by
  obtain ⟨t, hr⟩ := isKnown_iff.mp (known_of_tree hs)
  cases t with
  | integer value =>
    obtain rfl := Except.ok.inj ((tree_integer hr).symm.trans hs)
    exact ⟨_, content?_eq_some_iff.mpr ⟨_, hr, rfl⟩, .integer value⟩
  | constant id =>
    obtain rfl := Except.ok.inj ((tree_constant hr).symm.trans hs)
    exact ⟨_, content?_constant_iff.mpr ⟨id, hr, h.admits.resolve?_constant hr⟩, .constant _⟩
  | function id args =>
    obtain ⟨trees, htrees, rfl⟩ := h.tree_function_ok hr hs
    refine ⟨_, content?_function_iff.mpr ⟨id, hr, h.admits.resolve?_function hr⟩, ?_⟩
    exact .function _ (fun arg harg => ((h.admissible hr).2.2 arg harg).1) htrees

/-- The handles have the same sign and denote the same tree, each in its table. -/
def Alike (table table' : SymbolTable) (s s' : Symbol) : Prop :=
  s.isNegated = s'.isNegated ∧ ∃ tree, table.tree s = .ok tree ∧ table'.tree s' = .ok tree

namespace Alike

theorem symm (h : table.Alike table' s s') : table'.Alike table s' s := by
  obtain ⟨hsign, tree, hs, hs'⟩ := h
  exact ⟨hsign.symm, tree, hs', hs⟩

theorem trans (h : table.Alike table' s s') (h' : table'.Alike table'' s' s'') :
    table.Alike table'' s s'' := by
  obtain ⟨hsign, tree, hs, hs'⟩ := h
  obtain ⟨hsign', tree', hs'', hs'''⟩ := h'
  obtain rfl := Except.ok.inj (hs'.symm.trans hs'')
  exact ⟨hsign.trans hsign', tree, hs, hs'''⟩

theorem flip (h : table.Alike table' s s') : table.Alike table' s.flip s'.flip := by
  obtain ⟨hsign, tree, hs, hs'⟩ := h
  refine ⟨by rw [s.isNegated_flip, s'.isNegated_flip, hsign], tree, ?_, ?_⟩
  · rwa [tree_flip]
  · rwa [tree_flip]

theorem extend (h : table.Alike table' s s') (ha : Admits table) (hl : Extends table later)
    (ha' : Admits table') (hl' : Extends table' later') : later.Alike later' s s' := by
  obtain ⟨hsign, tree, hs, hs'⟩ := h
  exact ⟨hsign, tree, ha.tree_extends hl hs, ha'.tree_extends hl' hs'⟩

theorem known (h : table.Alike table' s s') : table.isKnown s = true := by
  obtain ⟨-, tree, hs, -⟩ := h
  exact known_of_tree hs

theorem eq (hw : WellFormed table) (h : table.Alike table s u) : s = u := by
  obtain ⟨hsign, tree, hs, hu⟩ := h
  cases hn : u.isNegated with
  | false => exact hw.eq_of_tree (hsign.trans hn) hn hs hu
  | true =>
    have hflip : s.flip = u.flip := by
      refine hw.eq_of_tree ?_ ?_ ((table.tree_flip s).trans hs) ((table.tree_flip u).trans hu)
      · rw [s.isNegated_flip, hsign, hn]
        rfl
      · rw [u.isNegated_flip, hn]
        rfl
    rw [← s.flip_flip, hflip, u.flip_flip]

theorem left_unique (hw : WellFormed table) (h : table.Alike table' s s')
    (h' : table.Alike table' u s') : s = u := (h.trans h'.symm).eq hw

theorem render_eq (h : table.Alike table' s s') : table.render s = table'.render s' := by
  obtain ⟨hsign, tree, hs, hs'⟩ := h
  rw [render_of_tree hs, render_of_tree hs', hsign]

section WellFormed
variable (hw : WellFormed table) (hw' : WellFormed table')
include hw hw'

theorem related (h : table.Alike table' s s') : ∃ c c', table.content? s = some c ∧
    table'.content? s' = some c' ∧ Content.Related (table.Alike table') c c' := by
  obtain ⟨-, tree, hs, hs'⟩ := h
  obtain ⟨c, hc, hd⟩ := hw.denotes_of_tree hs
  obtain ⟨c', hc', hd'⟩ := hw'.denotes_of_tree hs'
  refine ⟨c, c', hc, hc', ?_⟩
  cases hd with
  | constant name =>
    cases hd'
    exact .constant name
  | integer value =>
    cases hd'
    exact .integer value
  | @function name args trees hpositive htrees =>
    cases hd' with
    | @function _ args' _ hpositive' htrees' =>
      have hsame := mapM_ok_common_iff.mp ⟨trees, htrees, htrees'⟩
      refine .function name (List.forall₂_iff_zip.mpr ⟨hsame.length_eq, fun hmem => ⟨?_, ?_⟩⟩)
      · obtain ⟨harg, harg'⟩ := List.of_mem_zip hmem
        rw [hpositive _ harg, hpositive' _ harg']
      · exact (List.forall₂_iff_zip.mp hsame).2 hmem

theorem of_stored {c c' : Content} (hs : table.Stored s c) (hs' : table'.Stored s' c')
    (h : Content.Related (table.Alike table') c c') : table.Alike table' s s' := by
  refine ⟨hs.1.trans hs'.1.symm, ?_⟩
  cases h with
  | constant text => exact ⟨_, tree_of_constant hs.2, tree_of_constant hs'.2⟩
  | integer value => exact ⟨_, tree_of_integer hs.2, tree_of_integer hs'.2⟩
  | function name hargs =>
    obtain ⟨trees, htrees, htrees'⟩ := mapM_ok_common_iff.mpr (hargs.imp fun _ _ harg => harg.2)
    exact ⟨_, hw.tree_of_function hs.2 htrees, hw'.tree_of_function hs'.2 htrees'⟩

/-- The readers of the tables give the same, with alike arguments. -/
theorem reads (h : table.Alike table' s s') : table.name? s = table'.name? s' ∧
    table.integer? s = table'.integer? s' ∧
    List.Forall₂ (table.Alike table') (table.arguments s) (table'.arguments s') := by
  obtain ⟨c, c', hc, hc', hrelated⟩ := h.related hw hw'
  have hreads := readsAs_of_content? hc
  have hreads' := readsAs_of_content? hc'
  cases hrelated with
  | constant text =>
    obtain ⟨-, hname, hinteger, hargs⟩ := hreads
    obtain ⟨-, hname', hinteger', hargs'⟩ := hreads'
    rw [hname, hname', hinteger, hinteger', hargs, hargs']
    exact ⟨rfl, rfl, .nil⟩
  | integer value =>
    obtain ⟨-, hname, hinteger, hargs⟩ := hreads
    obtain ⟨-, hname', hinteger', hargs'⟩ := hreads'
    rw [hname, hname', hinteger, hinteger', hargs, hargs']
    exact ⟨rfl, rfl, .nil⟩
  | function name halike =>
    obtain ⟨-, hname, hinteger, hargs⟩ := hreads
    obtain ⟨-, hname', hinteger', hargs'⟩ := hreads'
    rw [hname, hname', hinteger, hinteger', hargs, hargs']
    exact ⟨rfl, rfl, halike⟩

theorem stored_constant (h : table.Alike table' s s') {text : String}
    (hs : table.Stored s (.constant text)) : table'.Stored s' (.constant text) := by
  obtain ⟨c, c', hc, hc', hrelated⟩ := h.related hw hw'
  obtain rfl := Option.some.inj (hs.2.symm.trans hc)
  cases hrelated
  exact ⟨h.1.symm.trans hs.1, hc'⟩

theorem isPredicateConstant (h : table.Alike table' p p')
    (hp : table.isPredicateConstant p = true) : table'.isPredicateConstant p' = true := by
  obtain ⟨text, hc, hidentifier⟩ := isPredicateConstant_iff.mp hp
  obtain ⟨c, c', hc₁, hc', hrelated⟩ := h.related hw hw'
  obtain rfl := Option.some.inj (hc.symm.trans hc₁)
  cases hrelated
  exact isPredicateConstant_iff.mpr ⟨text, hc', hidentifier⟩

theorem headedBy (ha : table.Alike table' a a') (hp : table.Alike table' p p')
    (h : table.HeadedBy a p) : table'.HeadedBy a' p' := by
  obtain ⟨text, hstored, hname, hidentifier⟩ := headedBy_iff.mp h
  refine headedBy_iff.mpr ⟨text, hp.stored_constant hw hw' hstored, ?_, hidentifier⟩
  rw [← (ha.reads hw hw').1, hname]

/-- The same predicate over alike arguments gives alike atoms. -/
theorem of_atomOf (hp : table.Alike table' p p')
    (hargs : List.Forall₂ (table.Alike table') args args')
    (h : table.AtomOf p args a) (h' : table'.AtomOf p' args' a') : table.Alike table' a a' := by
  obtain ⟨hpositive, hheaded, rfl⟩ := h
  obtain ⟨hpositive', hheaded', rfl⟩ := h'
  obtain ⟨text, hstored, hname, -⟩ := headedBy_iff.mp hheaded
  obtain ⟨text', hstored', hname', -⟩ := headedBy_iff.mp hheaded'
  have hsame := (hp.stored_constant hw hw' hstored).2.symm.trans hstored'.2
  obtain rfl : text = text' := Content.constant.inj (Option.some.inj hsame)
  exact of_stored hw hw' ⟨hpositive, content?_of_name? hw hname⟩
    ⟨hpositive', content?_of_name? hw' hname'⟩ (Content.related_application text hargs)

end WellFormed

end Alike

/-- The tuples have alike members, place by place. -/
abbrev AlikeTuple (table table' : SymbolTable) (t t' : Tuple) : Prop :=
  List.Forall₂ (table.Alike table') t t'

namespace AlikeTuple
variable {t t' v : Tuple}

theorem symm (h : table.AlikeTuple table' t t') : table'.AlikeTuple table t' t :=
  (h.imp fun _ _ => Alike.symm).flip

theorem extend (h : table.AlikeTuple table' t t') (ha : Admits table) (hl : Extends table later)
    (ha' : Admits table') (hl' : Extends table' later') : later.AlikeTuple later' t t' :=
  h.imp fun _ _ hs => hs.extend ha hl ha' hl'

theorem left_unique (hw : WellFormed table) (h : table.AlikeTuple table' t t')
    (h' : table.AlikeTuple table' v t') : t = v :=
  List.left_unique_forall₂' (fun _ _ _ hs hu => hs.left_unique hw hu) h h'

theorem forall_length_iff {P Q : Tuple → Prop} (h : Paired (table.AlikeTuple table') P Q)
    (n : Nat) : (∀ t, P t → t.length = n) ↔ ∀ t', Q t' → t'.length = n := by
  constructor
  · intro hall t' ht'
    obtain ⟨t, ht, hsame⟩ := h.back t' ht'
    exact hsame.length_eq ▸ hall t ht
  · intro hall t ht
    obtain ⟨t', ht', hsame⟩ := h.forth t ht
    exact hsame.length_eq ▸ hall t' ht'

end AlikeTuple

end SymbolTable

end ExternalAtoms
