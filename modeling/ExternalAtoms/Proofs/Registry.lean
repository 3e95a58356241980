import ExternalAtoms.Registry

/-! # What registrations make of a registry

Registration validates every signature and refuses a predicate that is taken. So each atom of a
registry stands under its own predicate, which is an identifier, and what has been found under a
predicate once is found there ever after.
-/
namespace ExternalAtoms
open Text

theorem Signature.isIdentifier_of_validate {s : Signature} {plugin : String}
    (h : s.validate plugin = .ok ()) : isIdentifier s.predicate = true := by
  have hpredicate : s.checkPredicate plugin = .ok () := by
    cases hp : s.checkPredicate plugin with
    | error e => simp [validate, hp, bind, Except.bind] at h
    | ok _ => rfl
  unfold checkPredicate at hpredicate
  split at hpredicate
  · simp at hpredicate
  · split at hpredicate
    · next hidentifier => exact hidentifier
    · simp at hpredicate

namespace Registry
variable {r : Registry} {plugin predicate : String} {atom : ExternalAtom}

/-- Each atom stands under its own predicate, which is an identifier. -/
def Sound (r : Registry) : Prop :=
  ∀ predicate atom, r.find? predicate = some atom →
    atom.predicate = predicate ∧ isIdentifier predicate = true

theorem empty_sound : empty.Sound := by simp [Sound, find?, empty]

theorem find?_insert : (r.insert plugin atom).find? predicate =
    if atom.predicate = predicate then some atom else r.find? predicate := by
  simp only [find?, insert, Std.ExtTreeMap.getElem?_insert, Std.LawfulEqCmp.compare_eq_iff_eq]
  split <;> rfl

theorem Sound.insert (h : r.Sound) (ha : isIdentifier atom.predicate = true) :
    (r.insert plugin atom).Sound := by
  intro predicate other hfind
  rw [find?_insert] at hfind
  split at hfind
  · next he =>
    obtain rfl := Option.some.inj hfind
    exact ⟨he, he ▸ ha⟩
  · exact h predicate other hfind

theorem checkAtoms_ok {earlier : List String} {atoms : List ExternalAtom}
    (h : r.checkAtoms plugin earlier atoms = .ok ()) :
    ∀ a ∈ atoms, isIdentifier a.predicate = true ∧ r.find? a.predicate = none := by
  induction atoms generalizing earlier with
  | nil => simp
  | cons a rest ih =>
    simp only [checkAtoms, bind, Except.bind] at h
    cases hvalid : a.signature.validate plugin with
    | error e => simp [hvalid] at h
    | ok _ =>
      simp only [hvalid] at h
      cases howner : r.owner? plugin a.predicate earlier with
      | some existing => simp [howner] at h
      | none =>
        simp only [howner] at h
        intro b hb
        rcases List.mem_cons.mp hb with rfl | hb
        · refine ⟨Signature.isIdentifier_of_validate hvalid, ?_⟩
          unfold owner? pluginOf? at howner
          unfold find?
          cases he : r.entries[b.predicate]? with
          | none => rfl
          | some entry => simp [he] at howner
        · exact ih h b hb

theorem check_ok {p : Plugin} (h : r.check p = .ok ()) :
    r.checkAtoms p.name [] p.atoms = .ok () := by
  unfold check at h
  split at h
  · cases h
  · exact h

/-- The atoms are inserted only after all of them have passed the check. -/
theorem register_cases (r : Registry) (p : Plugin) :
    (∃ e, r.check p = .error e ∧ r.register p = (.error e, r)) ∨
      r.check p = .ok () ∧ r.register p = (.ok p.atoms.length, r.load p) := by
  cases hcheck : r.check p with
  | error e => exact Or.inl ⟨e, rfl, by rw [register, hcheck]⟩
  | ok _ => exact Or.inr ⟨rfl, by rw [register, hcheck]⟩

theorem Sound.foldl_insert {atoms : List ExternalAtom}
    (h : r.Sound) (hatoms : ∀ a ∈ atoms, isIdentifier a.predicate = true) :
    (atoms.foldl (fun r atom => r.insert plugin atom) r).Sound :=
  List.foldlRecOn atoms _ h fun _ hr a ha => hr.insert (hatoms a ha)

theorem find?_foldl_insert {atoms : List ExternalAtom}
    (hatoms : ∀ a ∈ atoms, a.predicate ≠ predicate) :
    (atoms.foldl (fun r atom => r.insert plugin atom) r).find? predicate =
      r.find? predicate := by
  refine List.foldlRecOn atoms _
    (motive := fun r' : Registry => r'.find? predicate = r.find? predicate) rfl
    fun r' hr' a ha => ?_
  rw [find?_insert, if_neg (hatoms a ha), hr']

theorem Sound.register (h : r.Sound) (p : Plugin) : (r.register p).2.Sound := by
  rcases register_cases r p with ⟨e, -, hr⟩ | ⟨hcheck, hr⟩ <;> rw [hr]
  · exact h
  · have hfold : (p.atoms.foldl (fun r atom => r.insert p.name atom) r).Sound :=
      h.foldl_insert fun a ha => (checkAtoms_ok (check_ok hcheck) a ha).1
    exact hfold

/-- What has been found under a predicate is found there after every registration. -/
theorem find?_register (hfind : r.find? predicate = some atom) (p : Plugin) :
    (r.register p).2.find? predicate = some atom := by
  rcases register_cases r p with ⟨e, -, hr⟩ | ⟨hcheck, hr⟩ <;> rw [hr]
  · exact hfind
  · have hfree : ∀ a ∈ p.atoms, a.predicate ≠ predicate := by
      rintro a ha rfl
      simp [(checkAtoms_ok (check_ok hcheck) a ha).2] at hfind
    exact (find?_foldl_insert hfree).trans hfind

end Registry

end ExternalAtoms
