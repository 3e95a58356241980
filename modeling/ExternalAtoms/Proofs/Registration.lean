import ExternalAtoms.Bundled.Plugins
import ExternalAtoms.Proofs.Registry
import ExternalAtoms.Proofs.Signature.WellFormed

/-! # Registration of plugins

A registry admits a plugin that has a name and whose atoms are well formed, with predicates that
differ from each other and from those that are taken. Exactly then registration succeeds, and it
adds the atoms of the plugin, each under its own predicate, and nothing else. The entries of a
registry that only registrations have changed therefore are what registration made sure of.
-/
namespace ExternalAtoms

/-- What a registry asks of a plugin. -/
structure Plugin.Admissible (p : Plugin) (r : Registry) : Prop where
  named : p.name ≠ ""
  wellFormed : ∀ a ∈ p.atoms, a.signature.WellFormed
  distinct : (p.atoms.map ExternalAtom.predicate).Nodup
  fresh : ∀ a ∈ p.atoms, r.contains a.predicate = false

namespace Registry
variable {r r' : Registry} {p : Plugin} {plugin predicate : String} {atom : ExternalAtom}
  {atoms : List ExternalAtom} {entry : RegistryEntry} {count : Nat}

/-- The registries of a session: what any sequence of offers makes of the empty registry. -/
inductive Registered : Registry → Prop
  | empty : Registered .empty
  | offer {r : Registry} (p : Plugin) (h : Registered r) : Registered (r.register p).2

/-- The new registry has the atoms of one plugin besides those of the old one. -/
structure Gains (r : Registry) (plugin : String) (atoms : List ExternalAtom) (r' : Registry) :
    Prop where
  entries : ∀ (predicate : String) (entry : RegistryEntry), r'.entries[predicate]? = some entry ↔
    r.entries[predicate]? = some entry ∨
      ∃ a ∈ atoms, a.predicate = predicate ∧ entry = ⟨plugin, a⟩
  size : r'.size = r.size + atoms.length

/-- Each atom stands under its own predicate, is well formed, and came with a loaded plugin. -/
structure Consistent (r : Registry) : Prop where
  keyed : ∀ (predicate : String) (entry : RegistryEntry),
    r.entries[predicate]? = some entry → entry.atom.predicate = predicate
  wellFormed : ∀ (predicate : String) (entry : RegistryEntry),
    r.entries[predicate]? = some entry → entry.atom.signature.WellFormed
  loaded : ∀ (predicate : String) (entry : RegistryEntry),
    r.entries[predicate]? = some entry → entry.plugin ∈ r.plugins

theorem contains_eq_false_iff :
    r.contains predicate = false ↔ r.entries[predicate]? = none := by
  rw [contains, Std.ExtTreeMap.contains_eq_isSome_getElem?, Option.isSome_eq_false_iff,
    Option.isNone_iff_eq_none]

theorem owner?_eq_none_iff {earlier : List String} :
    r.owner? plugin predicate earlier = none ↔
      r.contains predicate = false ∧ predicate ∉ earlier := by
  rw [contains_eq_false_iff, owner?, pluginOf?]
  cases r.entries[predicate]? <;> simp

theorem checkAtoms_cons_ok_iff {earlier : List String} :
    r.checkAtoms plugin earlier (atom :: atoms) = .ok () ↔ atom.signature.WellFormed ∧
      (r.contains atom.predicate = false ∧ atom.predicate ∉ earlier) ∧
        r.checkAtoms plugin (atom.predicate :: earlier) atoms = .ok () := by
  rw [checkAtoms, Signature.bind_ok_unit_iff, Signature.validate_ok_iff,
    ← @owner?_eq_none_iff r plugin]
  refine and_congr_right fun _ => ?_
  split <;> simp [*]

theorem checkAtoms_ok_iff {earlier : List String} :
    r.checkAtoms plugin earlier atoms = .ok () ↔
      (∀ a ∈ atoms, a.signature.WellFormed) ∧ (atoms.map ExternalAtom.predicate).Nodup ∧
        ∀ a ∈ atoms, r.contains a.predicate = false ∧ a.predicate ∉ earlier := by
  induction atoms generalizing earlier with
  | nil => simp [checkAtoms]
  | cons a rest ih =>
    rw [checkAtoms_cons_ok_iff, ih]
    simp only [List.map_cons, List.nodup_cons, List.mem_map, List.mem_cons,
      not_or, not_exists, not_and]
    grind

theorem check_ok_iff : r.check p = .ok () ↔ p.Admissible r := by
  have hchecks : r.check p = .ok () ↔ p.name ≠ "" ∧ r.checkAtoms p.name [] p.atoms = .ok () := by
    rw [check]
    split <;> simp_all
  rw [hchecks, checkAtoms_ok_iff]
  constructor
  · rintro ⟨hnamed, hwell, hdistinct, hfresh⟩
    exact ⟨hnamed, hwell, hdistinct, fun a ha => (hfresh a ha).1⟩
  · rintro ⟨hnamed, hwell, hdistinct, hfresh⟩
    exact ⟨hnamed, hwell, hdistinct, fun a ha => ⟨hfresh a ha, List.not_mem_nil⟩⟩

theorem register_of_admissible (h : p.Admissible r) :
    r.register p = (.ok p.atoms.length, r.load p) := by
  rcases register_cases r p with ⟨e, he, -⟩ | ⟨-, hr⟩
  · simp [check_ok_iff.mpr h] at he
  · exact hr

theorem register_of_not_admissible (h : ¬p.Admissible r) :
    (∃ e, (r.register p).1 = .error e) ∧ (r.register p).2 = r := by
  rcases register_cases r p with ⟨e, -, hr⟩ | ⟨hcheck, -⟩
  · rw [hr]
    exact ⟨⟨e, rfl⟩, rfl⟩
  · exact absurd (check_ok_iff.mp hcheck) h

theorem register_ok_iff : (r.register p).1 = .ok count ↔
    p.Admissible r ∧ count = p.atoms.length := by
  by_cases h : p.Admissible r
  · simp [register_of_admissible h, h, eq_comm]
  · obtain ⟨⟨e, he⟩, -⟩ := register_of_not_admissible h
    simp [he, h]

theorem Gains.insert (hfresh : r.contains atom.predicate = false) :
    r.Gains plugin [atom] (r.insert plugin atom) where
  entries predicate entry := by
    rw [contains_eq_false_iff] at hfresh
    simp only [Registry.insert, Std.ExtTreeMap.getElem?_insert,
      Std.LawfulEqCmp.compare_eq_iff_eq, List.mem_singleton, exists_eq_left]
    grind
  size := by
    rw [contains] at hfresh
    simp [Registry.size, Registry.insert, Std.ExtTreeMap.size_insert, hfresh]

theorem Gains.trans {others : List ExternalAtom} {r'' : Registry} (h : r.Gains plugin atoms r')
    (h' : r'.Gains plugin others r'') : r.Gains plugin (atoms ++ others) r'' where
  entries predicate entry := by
    rw [h'.entries, h.entries]
    simp only [List.mem_append, or_and_right, exists_or, or_assoc]
  size := by
    rw [h'.size, h.size, List.length_append, Nat.add_assoc]

theorem Gains.foldl_insert (hdistinct : (atoms.map ExternalAtom.predicate).Nodup)
    (hfresh : ∀ a ∈ atoms, r.contains a.predicate = false) :
    r.Gains plugin atoms (atoms.foldl (fun r atom => r.insert plugin atom) r) := by
  induction atoms generalizing r with
  | nil => exact ⟨by simp, rfl⟩
  | cons a rest ih =>
    obtain ⟨hnew, hdistinct⟩ := List.nodup_cons.mp hdistinct
    obtain ⟨ha, hfresh⟩ := List.forall_mem_cons.mp hfresh
    have hstep : r.Gains plugin [a] (r.insert plugin a) := .insert ha
    refine hstep.trans (ih hdistinct fun b hb => ?_)
    -- a later atom is still new: its predicate is not that of the atom just inserted
    have hne : a.predicate ≠ b.predicate := fun he => hnew (List.mem_map.mpr ⟨b, hb, he.symm⟩)
    have hb := hfresh b hb
    rw [contains_eq_false_iff] at hb ⊢
    rw [Registry.insert, Std.ExtTreeMap.getElem?_insert, if_neg (by simpa using hne), hb]

theorem plugins_foldl_insert (atoms : List ExternalAtom) (r : Registry) :
    (atoms.foldl (fun r atom => r.insert plugin atom) r).plugins = r.plugins :=
  List.foldlRecOn atoms _ (motive := fun r' : Registry => r'.plugins = r.plugins) rfl
    fun _ h _ _ => h

theorem load_gains (h : p.Admissible r) :
    r.Gains p.name p.atoms (r.load p) ∧ (r.load p).plugins = r.plugins ++ [p.name] := by
  have hgains : r.Gains p.name p.atoms _ := .foldl_insert h.distinct h.fresh
  exact ⟨⟨hgains.entries, hgains.size⟩, by rw [load, plugins_foldl_insert]⟩

theorem register_gains (h : (r.register p).1 = .ok count) :
    r.Gains p.name p.atoms (r.register p).2 ∧ (r.register p).2.plugins = r.plugins ++ [p.name] := by
  have hadmissible := (register_ok_iff.mp h).1
  rw [register_of_admissible hadmissible]
  exact load_gains hadmissible

/-- An entry stays as it is, because a predicate that is taken is not given away again. -/
theorem Gains.keeps (h : r.Gains plugin atoms r') (hpredicate : r.contains predicate = true) :
    r'.entries[predicate]? = r.entries[predicate]? := by
  rw [contains, Std.ExtTreeMap.contains_eq_isSome_getElem?] at hpredicate
  obtain ⟨entry, hentry⟩ := Option.isSome_iff_exists.mp hpredicate
  rw [hentry, h.entries]
  exact Or.inl hentry

/-- Each atom of the plugin is found under its own predicate. -/
def Loads (r : Registry) (p : Plugin) : Prop := ∀ a ∈ p.atoms, r.find? a.predicate = some a

theorem loads_of_register (h : (r.register p).1 = .ok count) : (r.register p).2.Loads p := by
  intro a ha
  have hentry := ((register_gains h).1.entries a.predicate ⟨p.name, a⟩).mpr
    (Or.inr ⟨a, ha, rfl, rfl⟩)
  rw [find?, hentry]
  rfl

theorem Loads.register (hp : r.Loads p) (other : Plugin) : (r.register other).2.Loads p :=
  fun a ha => find?_register (hp a ha) other

theorem Consistent.empty : Registry.empty.Consistent := by
  constructor <;> simp [Registry.empty]

theorem Consistent.load (h : r.Consistent) (hp : p.Admissible r) : (r.load p).Consistent := by
  obtain ⟨hgains, hplugins⟩ := load_gains hp
  constructor
  · intro predicate entry hentry
    rcases (hgains.entries _ _).mp hentry with hold | ⟨a, -, ha, rfl⟩
    · exact h.keyed _ _ hold
    · exact ha
  · intro predicate entry hentry
    rcases (hgains.entries _ _).mp hentry with hold | ⟨a, ha, -, rfl⟩
    · exact h.wellFormed _ _ hold
    · exact hp.wellFormed a ha
  · intro predicate entry hentry
    rw [hplugins, List.mem_append, List.mem_singleton]
    rcases (hgains.entries _ _).mp hentry with hold | ⟨a, -, -, rfl⟩
    · exact Or.inl (h.loaded _ _ hold)
    · exact Or.inr rfl

theorem Consistent.register (h : r.Consistent) (p : Plugin) : (r.register p).2.Consistent := by
  by_cases hp : p.Admissible r
  · rw [register_of_admissible hp]
    exact h.load hp
  · rwa [(register_of_not_admissible hp).2]

theorem Registered.consistent (h : r.Registered) : r.Consistent := by
  induction h with
  | empty => exact .empty
  | offer p _ ih => exact ih.register p

/-- A registry takes a whole plugin or nothing of it, and it takes exactly the plugins that it
admits. -/
theorem registration_all_or_nothing (h : r.Registered) (p : Plugin) :
    ((∃ count, (r.register p).1 = .ok count) ↔ p.Admissible r) ∧
      (¬p.Admissible r → (r.register p).2 = r) ∧
      (∀ count, (r.register p).1 = .ok count →
        r.Gains p.name p.atoms (r.register p).2 ∧ (r.register p).2.size = r.size + count ∧
        (r.register p).2.plugins = r.plugins ++ [p.name] ∧
        (∀ a ∈ p.atoms, (r.register p).2.find? a.predicate = some a ∧
          (r.register p).2.pluginOf? a.predicate = some p.name) ∧
        ∀ predicate, r.contains predicate = true →
          (r.register p).2.find? predicate = r.find? predicate ∧
            (r.register p).2.pluginOf? predicate = r.pluginOf? predicate) ∧
      r.Consistent := by
  refine ⟨⟨?_, ?_⟩, fun hp => (register_of_not_admissible hp).2, ?_, h.consistent⟩
  · rintro ⟨count, hr⟩
    exact (register_ok_iff.mp hr).1
  · exact fun hadmissible => ⟨_, register_ok_iff.mpr ⟨hadmissible, rfl⟩⟩
  · intro count hr
    obtain ⟨hgains, hplugins⟩ := register_gains hr
    obtain rfl := (register_ok_iff.mp hr).2
    refine ⟨hgains, hgains.size, hplugins,
      fun a ha => ⟨loads_of_register hr a ha, ?_⟩, fun predicate hp => ?_⟩
    · have hentry := (hgains.entries a.predicate ⟨p.name, a⟩).mpr (Or.inr ⟨a, ha, rfl, rfl⟩)
      rw [pluginOf?, hentry]
      rfl
    · rw [find?, pluginOf?, hgains.keeps hp]
      exact ⟨rfl, rfl⟩

/-- The test atoms can be loaded beside the string atoms, and these only once. -/
theorem registration_all_or_nothing_bundled :
    (Registry.empty.register Bundled.stringPlugin).2.Registered ∧
      Bundled.testPlugin.Admissible (Registry.empty.register Bundled.stringPlugin).2 ∧
      ((Registry.empty.register Bundled.stringPlugin).2.register Bundled.stringPlugin).2 =
        (Registry.empty.register Bundled.stringPlugin).2 := by
  have h : (Registry.empty.register Bundled.stringPlugin).2.Registered := .offer _ .empty
  refine ⟨h, (registration_all_or_nothing h _).1.mp ⟨9, rfl⟩,
    (registration_all_or_nothing h _).2.1 fun hadmissible => ?_⟩
  obtain ⟨count, hr⟩ := (registration_all_or_nothing h _).1.mpr hadmissible
  obtain ⟨e, he⟩ : ∃ e, ((Registry.empty.register Bundled.stringPlugin).2.register
      Bundled.stringPlugin).1 = .error e := ⟨_, rfl⟩
  rw [hr] at he
  cases he

end Registry

end ExternalAtoms
