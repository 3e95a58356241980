import ExternalAtoms.Proofs.Symbol.WellFormed

/-! # Heads of atoms

The predicate constant that heads an atom is stored when somebody asks for it. From then on it heads
the atom in every later table, and asking again answers it and stores nothing.
-/
namespace ExternalAtoms

/-- The term is the name alone or the name applied to arguments. -/
def Term.IsNamed (name : NameId) : Term → Prop
  | .constant n | .function n _ => n = name
  | .integer _ => False

namespace SymbolTable
variable {table later : SymbolTable} {a p q : Symbol}

theorem isPredicateName_iff {name : NameId} :
    table.isPredicateName name = true ↔
      ∃ text, table.names.resolve? name = some text ∧ Text.isIdentifier text = true := by
  rw [isPredicateName, Option.any_eq_true]

theorem Extends.isPredicateName (h : Extends table later) {name : NameId}
    (hn : table.isPredicateName name = true) : later.isPredicateName name = true := by
  obtain ⟨text, ht, hi⟩ := isPredicateName_iff.mp hn
  exact isPredicateName_iff.mpr ⟨text, h.name ht, hi⟩

theorem Extends.arguments (h : Extends table later) (ha : table.isKnown a = true) :
    later.arguments a = table.arguments a := by
  obtain ⟨t, ht⟩ := isKnown_iff.mp ha
  rw [SymbolTable.arguments, SymbolTable.arguments, h.resolve ht, ht]

/-- The head of `a` is `p`, and asking for it stores nothing. -/
def HeadOf (table : SymbolTable) (a p : Symbol) : Prop := table.head a = (some p, table)

theorem headOf_iff : table.HeadOf a p ↔ ∃ name t, table.resolve? a = some t ∧
    table.isPredicateName name = true ∧ (t = .constant name ∧ p = a.positive ∨
      ∃ args, t = .function name args ∧ table.handles[Term.constant name]? = some p) := by
  constructor
  · intro h
    unfold HeadOf head at h
    split at h
    · next name hr =>
      split at h
      · next hn =>
        exact ⟨name, _, hr, hn, Or.inl ⟨rfl, (Option.some.inj (Prod.mk.inj h).1).symm⟩⟩
      · cases h
    · next name args hr =>
      split at h
      · next hn =>
        obtain ⟨hp, htable⟩ := Prod.mk.inj h
        have hhandle := table.handles_intern (.constant name)
        rw [htable, Option.some.inj hp] at hhandle
        exact ⟨name, _, hr, hn, Or.inr ⟨args, rfl, hhandle⟩⟩
      · cases h
    · cases h
  · rintro ⟨name, t, hr, hn, ⟨rfl, rfl⟩ | ⟨args, rfl, hhandle⟩⟩
    · simp only [HeadOf, head, hr, hn, if_true]
    · simp only [HeadOf, head, hr, hn, if_true, intern_of_handles hhandle]

namespace HeadOf

theorem fst (h : table.HeadOf a p) : (table.head a).1 = some p := congrArg Prod.fst h

theorem iff_head (h : table.HeadOf a p) : table.HeadOf a q ↔ (table.head a).1 = some q := by
  rw [HeadOf, h, Prod.mk.injEq, and_iff_left rfl]

theorem unique (h : table.HeadOf a p) (h' : table.HeadOf a q) : p = q :=
  Option.some.inj (h.fst.symm.trans h'.fst)

theorem known (h : table.HeadOf a p) : table.isKnown a = true := by
  obtain ⟨name, t, ht, -⟩ := headOf_iff.mp h
  exact isKnown_iff.mpr ⟨t, ht⟩

theorem extend (h : table.HeadOf a p) (hg : Grows table later) : later.HeadOf a p := by
  obtain ⟨name, t, ht, hn, hp⟩ := headOf_iff.mp h
  refine headOf_iff.mpr ⟨name, t, hg.toExtends.resolve ht, hg.toExtends.isPredicateName hn, ?_⟩
  rcases hp with hconstant | ⟨args, hfunction, hhandle⟩
  · exact Or.inl hconstant
  · exact Or.inr ⟨args, hfunction, hg.handles hhandle⟩

theorem iff_of_grows (h : table.HeadOf a p) (hg : Grows table later) :
    later.HeadOf a q ↔ table.HeadOf a q := by
  constructor
  · intro hq
    exact (h.extend hg).unique hq ▸ h
  · exact fun hq => hq.extend hg

end HeadOf

theorem headOf_of_head (h : (table.head a).1 = some p) : (table.head a).2.HeadOf a p := by
  unfold head at h ⊢
  cases hr : table.resolve? a with
  | none => simp [hr] at h
  | some t =>
    cases t with
    | integer value => simp [hr] at h
    | constant name =>
      simp only [hr] at h ⊢
      split at h
      · next hn =>
        rw [if_pos hn, headOf_iff]
        exact ⟨name, _, hr, hn, Or.inl ⟨rfl, (Option.some.inj h).symm⟩⟩
      · simp at h
    | function name args =>
      simp only [hr] at h ⊢
      split at h
      · next hn =>
        rw [if_pos hn, headOf_iff]
        have hl := table.intern_extends (.constant name)
        refine ⟨name, _, hl.resolve hr, hl.isPredicateName hn, Or.inr ⟨args, rfl, ?_⟩⟩
        rw [← Option.some.inj h]
        exact table.handles_intern _
      · simp at h

/-- The constant `p` is stored, and its name is an identifier and is the name of `a`. -/
def HeadedBy (table : SymbolTable) (a p : Symbol) : Prop :=
  p.isNegated = false ∧ ∃ name t, table.resolve? p = some (.constant name) ∧
    table.isPredicateName name = true ∧ table.resolve? a = some t ∧ t.IsNamed name

namespace HeadedBy

theorem known (h : table.HeadedBy a p) : table.isKnown a = true := by
  obtain ⟨-, name, t, -, -, ha, -⟩ := h
  exact isKnown_iff.mpr ⟨t, ha⟩

theorem extend (h : table.HeadedBy a p) (hl : Extends table later) : later.HeadedBy a p := by
  obtain ⟨hp, name, t, hn, hi, ha, ht⟩ := h
  exact ⟨hp, name, t, hl.resolve hn, hl.isPredicateName hi, hl.resolve ha, ht⟩

theorem unique (hw : WellFormed table) (h : table.HeadedBy a p) (h' : table.HeadedBy a q) :
    p = q := by
  obtain ⟨hp, m, t, hm, -, ha, ht⟩ := h
  obtain ⟨hq, n, u, hn, -, ha', hu⟩ := h'
  obtain rfl := Option.some.inj (ha.symm.trans ha')
  obtain rfl : m = n := by
    cases t with
    | integer value => exact ht.elim
    | constant name => exact ht.symm.trans hu
    | function name args => exact ht.symm.trans hu
  exact hw.unique hp hq hm hn

theorem iff_of_extends (hw : WellFormed later) (hl : Extends table later)
    (h : table.HeadedBy a p) : later.HeadedBy a q ↔ table.HeadedBy a q := by
  constructor
  · intro hq
    exact (h.extend hl).unique hw hq ▸ h
  · exact fun hq => hq.extend hl

theorem headOf (hw : WellFormed table) (h : table.HeadedBy a p) : table.HeadOf a p := by
  obtain ⟨hp, name, t, hn, hi, ha, ht⟩ := h
  refine headOf_iff.mpr ⟨name, t, ha, hi, ?_⟩
  cases t with
  | integer value => exact ht.elim
  | constant n =>
    obtain rfl : n = name := ht
    have hpos : table.resolve? a.positive = some (.constant n) := by
      rwa [resolve?, a.index_positive]
    exact Or.inl ⟨rfl, hw.unique hp a.isNegated_positive hn hpos⟩
  | function n args =>
    obtain rfl : n = name := ht
    exact Or.inr ⟨args, rfl, hw.handles_iff.mpr ⟨hp, hn⟩⟩

end HeadedBy

theorem HeadOf.headedBy (hw : WellFormed table) (h : table.HeadOf a p) : table.HeadedBy a p := by
  obtain ⟨name, t, ht, hn, ⟨rfl, rfl⟩ | ⟨args, rfl, hhandle⟩⟩ := headOf_iff.mp h
  · refine ⟨a.isNegated_positive, name, _, ?_, hn, ht, rfl⟩
    rwa [resolve?, a.index_positive]
  · obtain ⟨hp, hconstant⟩ := hw.handles_iff.mp hhandle
    exact ⟨hp, name, _, hconstant, hn, ht, rfl⟩

theorem WellFormed.headOf_eq (hw : WellFormed table) : table.HeadOf = table.HeadedBy := by
  funext a p
  exact propext ⟨fun h => h.headedBy hw, fun h => h.headOf hw⟩

/-- A symbol stands for an atom when its name is an identifier, be the head stored or not. -/
theorem isAtom_iff : (table.isAtom a).1 = true ↔ ∃ name t, table.resolve? a = some t ∧
    t.IsNamed name ∧ table.isPredicateName name = true := by
  simp only [isAtom, head]
  cases hr : table.resolve? a with
  | none => simp
  | some t =>
    cases t with
    | integer value => simp [Term.IsNamed]
    | constant name => by_cases hn : table.isPredicateName name = true <;> simp [Term.IsNamed, hn]
    | function name args =>
      by_cases hn : table.isPredicateName name = true <;> simp [Term.IsNamed, hn]

theorem Extends.isAtom (h : Extends table later) (ha : (table.isAtom a).1 = true) :
    (later.isAtom a).1 = true := by
  obtain ⟨name, t, hr, ht, hn⟩ := isAtom_iff.mp ha
  exact isAtom_iff.mpr ⟨name, t, h.resolve hr, ht, h.isPredicateName hn⟩

theorem HeadedBy.isAtom (h : table.HeadedBy a p) : (table.isAtom a).1 = true := by
  obtain ⟨-, name, t, -, hn, hr, ht⟩ := h
  exact isAtom_iff.mpr ⟨name, t, hr, ht, hn⟩

theorem isAtom_flip (table : SymbolTable) (a : Symbol) :
    (table.isAtom a.flip).1 = (table.isAtom a).1 := by
  rw [Bool.eq_iff_iff, isAtom_iff, isAtom_iff, resolve?, resolve?, a.index_flip]

theorem isAtom_of_not_atom (h : (table.isAtom a).1 = false) : (table.isAtom a).2 = table := by
  unfold isAtom head at h ⊢
  dsimp only at h ⊢
  split
  · split <;> rfl
  · next name args hr =>
    rw [hr] at h
    split
    · next hname => simp [hname] at h
    · rfl
  · rfl

theorem known_of_isAtom (ha : (table.isAtom a).1 = true) : table.isKnown a = true := by
  obtain ⟨name, t, hr, -, -⟩ := isAtom_iff.mp ha
  exact isKnown_iff.mpr ⟨t, hr⟩

theorem negate_of_isAtom (ha : (table.isAtom a).1 = true) : (table.negate a).1 = .ok a.flip := by
  simp only [negate, known_of_isAtom ha, if_true, ha]

/-- The new table comes from the old one by interning, and only constants were added. -/
structure GrowsByConstants (old new : SymbolTable) : Prop where
  grows : Grows old new
  added : ∀ (s : Symbol) (t : Term), new.resolve? s = some t →
    old.resolve? s = some t ∨ ∃ name, t = .constant name

namespace GrowsByConstants
variable {old new : SymbolTable}

theorem refl (table : SymbolTable) : GrowsByConstants table table := ⟨.refl, fun _ _ => Or.inl⟩

theorem trans (h : GrowsByConstants old new) (h' : GrowsByConstants new later) :
    GrowsByConstants old later := by
  refine ⟨h.grows.trans h'.grows, fun s t ht => ?_⟩
  rcases h'.added s t ht with ht | hconstant
  · exact h.added s t ht
  · exact Or.inr hconstant

theorem head (ha : Admits table) (s : Symbol) : GrowsByConstants table (table.head s).2 := by
  refine ⟨head_grows ha s, fun s' t ht => ?_⟩
  unfold SymbolTable.head at ht
  split at ht
  · exact Or.inl (by split at ht <;> exact ht)
  · next name args hr =>
    split at ht
    · unfold intern at ht
      split at ht
      · exact Or.inl ht
      · rw [resolve?, Array.getElem?_push] at ht
        split at ht
        · exact Or.inr ⟨name, (Option.some.inj ht).symm⟩
        · exact Or.inl ht
    · exact Or.inl ht
  · exact Or.inl ht

/-- What was no atom can only have become a constant that heads itself. -/
theorem isAtom (ha : Admits old) (h : GrowsByConstants old new) (hp : new.HeadOf a p)
    (hknown : old.isKnown p = true) : (old.isAtom a).1 = true := by
  obtain ⟨name, t, ht, hname, hhead⟩ := headOf_iff.mp hp
  have hold : old.resolve? a = some t := by
    rcases h.added a t ht with hold | ⟨other, rfl⟩
    · exact hold
    · rcases hhead with ⟨-, rfl⟩ | ⟨args, hfunction, -⟩
      · obtain ⟨u, hu⟩ := isKnown_iff.mp hknown
        rw [resolve?, a.index_positive] at hu
        rwa [← Option.some.inj ((h.grows.toExtends.resolve hu).symm.trans ht)]
      · cases hfunction
  have hnamed : t.IsNamed name := by
    rcases hhead with ⟨rfl, -⟩ | ⟨args, rfl, -⟩ <;> rfl
  obtain ⟨text, htext⟩ : ∃ text, old.names.resolve? name = some text := by
    rcases hhead with ⟨rfl, -⟩ | ⟨args, rfl, -⟩
    · exact ha.name_of_constant hold
    · exact ha.name_of_function hold
  obtain ⟨text', htext', hidentifier⟩ := isPredicateName_iff.mp hname
  obtain rfl := Option.some.inj ((h.grows.toExtends.name htext).symm.trans htext')
  exact isAtom_iff.mpr ⟨name, t, hold, hnamed, isPredicateName_iff.mpr ⟨text, htext, hidentifier⟩⟩

/-- Asking for a head answers what it is once all heads were asked for, provided that the symbol is
an atom already or the expected head is known. -/
theorem head_iff (ha : Admits old) (h : GrowsByConstants (old.head a).2 new)
    (hknown : (old.isAtom a).1 = true ∨ old.isKnown p = true) :
    (old.head a).1 = some p ↔ new.HeadOf a p := by
  constructor
  · exact fun hp => (headOf_of_head hp).extend h.grows
  · intro hp
    have hatom : (old.isAtom a).1 = true :=
      hknown.elim id ((GrowsByConstants.head ha a).trans h |>.isAtom ha hp)
    obtain ⟨q, hq⟩ := Option.isSome_iff_exists.mp hatom
    rw [hq, ((headOf_of_head hq).extend h.grows).unique hp]

end GrowsByConstants

/-- This is the positive handle of the predicate applied to these arguments. -/
def AtomOf (table : SymbolTable) (p : Symbol) (args : List Symbol) (a : Symbol) : Prop :=
  a.isNegated = false ∧ table.HeadedBy a p ∧ table.arguments a = args

theorem AtomOf.extend {args : List Symbol} (h : table.AtomOf p args a) (hl : Extends table later) :
    later.AtomOf p args a :=
  ⟨h.1, h.2.1.extend hl, (hl.arguments h.2.1.known).trans h.2.2⟩

/-- A function has arguments, so a predicate and the arguments determine the atom. -/
theorem AtomOf.unique (hw : WellFormed table) {args : List Symbol} {b : Symbol}
    (h : table.AtomOf p args a) (h' : table.AtomOf p args b) : a = b := by
  obtain ⟨hna, ⟨-, m, t, hm, -, hat, ht⟩, hargs⟩ := h
  obtain ⟨hnb, ⟨-, n, u, hn, -, hbu, hu⟩, hargs'⟩ := h'
  obtain rfl : m = n := by
    have he := Option.some.inj (hm.symm.trans hn)
    exact Term.constant.inj he
  suffices he : t = u from hw.unique hna hnb hat (he ▸ hbu)
  rw [arguments, hat] at hargs
  rw [arguments, hbu] at hargs'
  cases t with
  | integer value => exact ht.elim
  | constant k =>
    obtain rfl : k = m := ht
    cases u with
    | integer value => exact hu.elim
    | constant k' => rw [show k' = k from hu]
    | function k' args' => exact absurd (hargs'.trans hargs.symm) (hw.admissible hbu).2.1
  | function k args₁ =>
    obtain rfl : k = m := ht
    cases u with
    | integer value => exact hu.elim
    | constant k' => exact absurd (hargs.trans hargs'.symm) (hw.admissible hat).2.1
    | function k' args₂ =>
      have he : args₁ = args₂ := hargs.trans hargs'.symm
      rw [show k' = k from hu, he]

theorem WellFormed.resolve?_apply (h : WellFormed table) {name : NameId} {args : List Symbol}
    (ha : (table.apply name args).1 = .ok a) (hb : (table.apply name args).2.size ≤ 2 ^ 31) :
    a.isNegated = false ∧ (table.apply name args).2.arguments a = args ∧
      ∃ t, (table.apply name args).2.resolve? a = some t ∧ t.IsNamed name := by
  unfold SymbolTable.apply at ha hb ⊢
  cases args with
  | nil =>
    obtain rfl := Except.ok.inj ha
    have ht : (table.intern (.constant name)).2.resolve? _ = some _ := h.resolve?_intern hb
    refine ⟨h.isNegated_intern _, ?_, _, ht, rfl⟩
    simp [arguments, ht]
  | cons arg rest =>
    simp only [List.isEmpty_cons, Bool.false_eq_true, if_false] at ha hb ⊢
    cases hc : table.checkArguments (arg :: rest) with
    | error e => simp [hc] at ha
    | ok _ =>
      simp only [hc] at ha hb ⊢
      obtain rfl := Except.ok.inj ha
      have ht := h.resolve?_intern hb
      refine ⟨h.isNegated_intern _, ?_, _, ht, rfl⟩
      simp [arguments, ht]

theorem WellFormed.atomOf (h : WellFormed table) {args : List Symbol}
    (ha : (table.atom (p :: args)).1 = .ok a) (hb : (table.atom (p :: args)).2.size ≤ 2 ^ 31) :
    (table.atom (p :: args)).2.AtomOf p args a := by
  simp only [SymbolTable.atom] at ha hb ⊢
  cases hn : table.headName p with
  | error e => simp [hn] at ha
  | ok name =>
    simp only [hn] at ha hb ⊢
    obtain ⟨hp, hconstant, hname⟩ := headName_ok_iff.mp hn
    obtain ⟨hpositive, hargs, t, ht, hnamed⟩ := h.resolve?_apply ha hb
    have hl := table.apply_extends name args
    exact ⟨hpositive,
      ⟨hp, name, t, hl.resolve hconstant, hl.isPredicateName hname, ht, hnamed⟩, hargs⟩

end SymbolTable

end ExternalAtoms
