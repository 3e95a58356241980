import ExternalAtoms.Interpretation.Assignment
import ExternalAtoms.Proofs.Symbol.Head

/-! # Interpretations built on a table

An interpretation comes from an assignment: assign calls on a table of the session, with any storing
in between, and one build at the end. In such an interpretation the listed atoms are distinct and
agree with the truth values, each has its head stored, and the extension of a predicate holds the
arguments of its true atoms. All of this stays so while the table grows. In a well-formed table a
stored head is the constant of the name.
-/
namespace ExternalAtoms
open SymbolTable

theorem TupleSet.nodup_toList (tuples : TupleSet) : tuples.toList.Nodup :=
  tuples.distinct_toList.imp fun hne he => hne (Std.LawfulEqCmp.compare_eq_iff_eq.mpr he)

/-- An assignment made on a table of the session, by calls of which any may be refused. -/
inductive Assignment.MadeOn : SymbolTable → Assignment → Prop
  | start {table : SymbolTable} (h : Reaches .empty table) : MadeOn table .empty
  | store {table : SymbolTable} {a : Assignment} (request : StoreRequest) (h : MadeOn table a) :
      MadeOn (request.run table).2 a
  | assign {table : SymbolTable} {a : Assignment} (atom : Symbol) (truth : Truth)
      (h : MadeOn table a) :
      MadeOn (a.assign table atom truth).table (a.assign table atom truth).assignment

/-- The interpretation was built on this table or on an earlier state of it. -/
def Interpretation.BuiltOn (table : SymbolTable) (i : Interpretation) : Prop :=
  ∃ a before, Assignment.MadeOn before a ∧ (a.build before).1 = i ∧
    Reaches (a.build before).2 table

namespace Assignment
variable {table later : SymbolTable} {a : Assignment} {atom : Symbol}

/-- A call is refused before anything is changed, or it sets the value of a positive atom, whose
head it has stored. -/
theorem assign_cases (a : Assignment) (table : SymbolTable) (atom : Symbol) (truth : Truth) :
    ((atom.isNegated = true ∨ (table.isAtom atom).1 = false) ∧
        ∃ e, a.assign table atom truth = ⟨.error e, a, table⟩) ∨
      (atom.isNegated = false ∧ (table.isAtom atom).1 = true) ∧
        a.assign table atom truth = ⟨.ok (), a.set atom truth, (table.head atom).2⟩ := by
  unfold assign
  split
  · next hn => exact Or.inl ⟨Or.inl hn, _, rfl⟩
  · next hn =>
    dsimp only
    split
    · next hatom => exact Or.inr ⟨⟨by simpa using hn, hatom⟩, rfl⟩
    · next hatom =>
      rw [Bool.not_eq_true] at hatom
      rw [isAtom_of_not_atom hatom]
      exact Or.inl ⟨Or.inr hatom, _, rfl⟩

theorem assign_reaches (a : Assignment) (table : SymbolTable) (atom : Symbol) (truth : Truth) :
    Reaches table (a.assign table atom truth).table := by
  rcases assign_cases a table atom truth with ⟨-, e, ha⟩ | ⟨-, ha⟩ <;> rw [ha]
  · exact .refl
  · exact SymbolTable.run_reaches (.head atom) table

theorem MadeOn.reached (h : MadeOn table a) : Reaches .empty table := by
  induction h with
  | start h => exact h
  | store request _ ih => exact .store request ih
  | assign atom truth _ ih => exact ih.trans (assign_reaches _ _ atom truth)

theorem assign_of_isAtom (hn : atom.isNegated = false) (hp : table.isAtom atom = (true, table))
    (a : Assignment) (truth : Truth) :
    a.assign table atom truth = ⟨.ok (), a.set atom truth, table⟩ := by
  rw [Assignment.assign, if_neg (by simp [hn]), hp]
  rfl

theorem MadeOn.set (h : MadeOn table a) (hn : atom.isNegated = false)
    (hp : table.isAtom atom = (true, table)) (truth : Truth) :
    MadeOn table (a.set atom truth) := by
  have hmade := h.assign atom truth
  rwa [assign_of_isAtom hn hp] at hmade

/-- The atoms in order are those with a value, each once, positive and with its head stored. -/
structure Valid (table : SymbolTable) (a : Assignment) : Prop where
  nodup : a.order.toList.Nodup
  mem_order : ∀ s, s ∈ a.order.toList ↔ s ∈ a.truths
  headed : ∀ s ∈ a.order.toList, s.isNegated = false ∧ ∃ p, table.HeadOf s p

theorem Valid.extend (h : Valid table a) (hl : Grows table later) : Valid later a where
  nodup := h.nodup
  mem_order := h.mem_order
  headed s hs := by
    obtain ⟨hn, p, hp⟩ := h.headed s hs
    exact ⟨hn, p, hp.extend hl⟩

theorem Valid.set (h : Valid table a) {p : Symbol} {truth : Truth}
    (hn : atom.isNegated = false) (hp : table.HeadOf atom p) :
    Valid table (a.set atom truth) := by
  have hmem : ∀ s, s ∈ (a.set atom truth).truths ↔ s = atom ∨ s ∈ a.truths := by
    intro s
    simp only [Assignment.set, Std.ExtTreeMap.mem_insert, Std.LawfulEqCmp.compare_eq_iff_eq]
    rw [eq_comm]
  -- an atom that has a value keeps its place, any other comes last
  by_cases hold : atom ∈ a.truths
  · have horder : (a.set atom truth).order = a.order := if_pos hold
    refine ⟨horder ▸ h.nodup, fun s => ?_, horder ▸ h.headed⟩
    rw [horder, hmem, h.mem_order]
    constructor
    · exact Or.inr
    · rintro (rfl | hs)
      · exact hold
      · exact hs
  · have horder : (a.set atom truth).order.toList = a.order.toList ++ [atom] := by
      simp [Assignment.set, hold]
    rw [← h.mem_order] at hold
    refine ⟨?_, fun s => ?_, fun s hs => ?_⟩
    · rw [horder]
      exact List.nodup_append.mpr ⟨h.nodup, by simp, fun s hs t ht => by
        rw [List.mem_singleton.mp ht]
        rintro rfl
        exact hold hs⟩
    · rw [horder, hmem, List.mem_append, List.mem_singleton, h.mem_order]
      exact or_comm
    · rw [horder] at hs
      rcases List.mem_append.mp hs with hs | hs
      · exact h.headed s hs
      · rw [List.mem_singleton.mp hs]
        exact ⟨hn, p, hp⟩

theorem MadeOn.valid (h : MadeOn table a) : Valid table a := by
  induction h with
  | start h => exact ⟨by simp [empty], by simp [empty], by simp [empty]⟩
  | store request h ih => exact ih.extend (run_grows h.reached.admits request)
  | @assign table a atom truth h ih =>
    rcases assign_cases a table atom truth with ⟨-, e, ha⟩ | ⟨⟨hn, hatom⟩, ha⟩ <;> rw [ha]
    · exact ih
    · obtain ⟨p, hp⟩ := Option.isSome_iff_exists.mp hatom
      exact (ih.extend (head_grows h.reached.admits atom)).set hn (headOf_of_head hp)

end Assignment

namespace Interpretation
variable {table later : SymbolTable}

/-- The views of an interpretation agree: the list of atoms, the truth values, the extensions of
predicates and the number of undecided atoms. A relation says which predicates head an atom. -/
structure Agrees (heads : Symbol → Symbol → Prop) (table : SymbolTable) (i : Interpretation) :
    Prop where
  nodup : (i.atoms.toList.map Prod.fst).Nodup
  mem_atoms : ∀ a v, (a, v) ∈ i.atoms.toList ↔ i.truths[a]? = some v
  headed : ∀ a v, i.truths[a]? = some v → a.isNegated = false ∧ ∃ p, heads a p
  mem_extension : ∀ p x, x ∈ i.extension p ↔
    ∃ a, i.truths[a]? = some .true ∧ heads a p ∧ table.arguments a = x
  undecided_eq : i.undecided = i.atoms.toList.countP fun entry => entry.2 = .unknown

/-- The views agree on the heads that the table answers, whatever its size. -/
abbrev Snapshot (table : SymbolTable) (i : Interpretation) : Prop := i.Agrees table.HeadOf table

/-- The views agree on the constants that name the atoms. -/
abbrev Faithful (table : SymbolTable) (i : Interpretation) : Prop := i.Agrees table.HeadedBy table

namespace Snapshot
variable {i : Interpretation}

theorem headOf_of_grows (h : i.Snapshot table) (hl : Grows table later) {a p : Symbol} {v : Truth}
    (ha : i.truths[a]? = some v) (hp : later.HeadOf a p) : table.HeadOf a p := by
  obtain ⟨-, q, hq⟩ := h.headed a v ha
  exact (hq.iff_of_grows hl).mp hp

theorem extend (h : i.Snapshot table) (hl : Grows table later) : i.Snapshot later where
  nodup := h.nodup
  mem_atoms := h.mem_atoms
  headed a v ha := by
    obtain ⟨hn, p, hp⟩ := h.headed a v ha
    exact ⟨hn, p, hp.extend hl⟩
  mem_extension p x := by
    rw [h.mem_extension]
    constructor
    · rintro ⟨a, ha, hp, rfl⟩
      exact ⟨a, ha, hp.extend hl, hl.toExtends.arguments hp.known⟩
    · rintro ⟨a, ha, hp, rfl⟩
      have hold := h.headOf_of_grows hl ha hp
      exact ⟨a, ha, hold, (hl.toExtends.arguments hold.known).symm⟩
  undecided_eq := h.undecided_eq

theorem faithful (h : i.Snapshot table) (hw : WellFormed table) : i.Faithful table := by
  rwa [Faithful, ← hw.headOf_eq]

theorem isPartial_iff (h : i.Snapshot table) :
    i.isPartial = true ↔ ∃ a : Symbol, i.truths[a]? = some .unknown := by
  rw [isPartial, decide_eq_true_eq, h.undecided_eq, List.countP_pos_iff]
  constructor
  · rintro ⟨⟨a, v⟩, ha, hv⟩
    obtain rfl : v = .unknown := by simpa using hv
    exact ⟨a, (h.mem_atoms a _).mp ha⟩
  · rintro ⟨a, ha⟩
    exact ⟨(a, .unknown), (h.mem_atoms a _).mpr ha, by simp⟩

end Snapshot

theorem mem_trueAtoms {i : Interpretation} (hi : i.Snapshot table) {a : Symbol} :
    a ∈ i.trueAtoms ↔ i.truths[a]? = some .true := by
  rw [← hi.mem_atoms, trueAtoms, List.mem_map]
  constructor
  · rintro ⟨⟨b, v⟩, hb, rfl⟩
    obtain ⟨hmem, hv⟩ := List.mem_filter.mp hb
    obtain rfl : v = .true := by simpa [Truth.isTrue] using hv
    exact hmem
  · intro ha
    exact ⟨(a, .true), List.mem_filter.mpr ⟨ha, rfl⟩, rfl⟩

theorem record_table {atom p : Symbol} (hp : table.HeadOf atom p) (i : Interpretation)
    (v : Truth) : (i.record table atom v).2 = table := by
  cases v with
  | «false» => rfl
  | unknown => rfl
  | «true» => simp only [record, show table.head atom = (some p, table) from hp]

theorem record_atoms (i : Interpretation) (table : SymbolTable) (atom : Symbol) (v : Truth) :
    (i.record table atom v).1.atoms = i.atoms.push (atom, v) := by
  cases v with
  | «false» => rfl
  | unknown => rfl
  | «true» =>
    simp only [record]
    split <;> rfl

theorem record_truths (i : Interpretation) (table : SymbolTable) (atom : Symbol) (v : Truth) :
    (i.record table atom v).1.truths = i.truths := by
  cases v with
  | «false» => rfl
  | unknown => rfl
  | «true» =>
    simp only [record]
    split <;> rfl

theorem record_undecided (i : Interpretation) (table : SymbolTable) (atom : Symbol) (v : Truth) :
    (i.record table atom v).1.undecided = i.undecided + if v = .unknown then 1 else 0 := by
  cases v with
  | «false» => rfl
  | unknown => rfl
  | «true» =>
    simp only [record]
    split <;> rfl

theorem mem_record_extension {atom p : Symbol} (hp : table.HeadOf atom p) (i : Interpretation)
    (v : Truth) (q : Symbol) (x : Tuple) :
    x ∈ (i.record table atom v).1.extension q ↔
      x ∈ i.extension q ∨ v = .true ∧ table.HeadOf atom q ∧ table.arguments atom = x := by
  cases v with
  | «false» => simp [record, extension]
  | unknown => simp [record, extension]
  | «true» =>
    rw [hp.iff_head, hp.fst, Option.some.injEq]
    simp only [record, show table.head atom = (some p, table) from hp, extension,
      Std.ExtTreeMap.getElem?_insert, Std.LawfulEqCmp.compare_eq_iff_eq]
    split
    · next he =>
      subst he
      rw [Option.getD_some, Std.ExtTreeSet.mem_insert, Std.LawfulEqCmp.compare_eq_iff_eq, or_comm]
      simp
    · next he => simp [he]

theorem foldl_record (truth : Symbol → Truth) (atoms : List Symbol)
    (hatoms : ∀ a ∈ atoms, ∃ p, table.HeadOf a p) (i : Interpretation) :
    ∃ built : Interpretation,
      atoms.foldl (fun built atom => built.1.record built.2 atom (truth atom)) (i, table) =
        (built, table) ∧
      built.atoms.toList = i.atoms.toList ++ atoms.map (fun a => (a, truth a)) ∧
      built.truths = i.truths ∧
      built.undecided = i.undecided + atoms.countP (fun a => truth a = .unknown) ∧
      ∀ p x, x ∈ built.extension p ↔ x ∈ i.extension p ∨
        ∃ a ∈ atoms, truth a = .true ∧ table.HeadOf a p ∧ table.arguments a = x := by
  induction atoms generalizing i with
  | nil => exact ⟨i, rfl, by simp, rfl, rfl, by simp⟩
  | cons a rest ih =>
    obtain ⟨q, hq⟩ := hatoms a (by simp)
    have htable := i.record_table hq (truth a)
    obtain ⟨built, hbuilt, hlist, htruths, hcount, hext⟩ :=
      ih (fun a ha => hatoms a (by simp [ha])) (i.record table a (truth a)).1
    refine ⟨built, ?_, ?_, ?_, ?_, fun p x => ?_⟩
    · have hstep : i.record table a (truth a) = ((i.record table a (truth a)).1, table) :=
        Prod.ext rfl htable
      rw [List.foldl_cons, ← hbuilt, ← hstep]
    · rw [hlist, record_atoms]
      simp
    · rw [htruths, record_truths]
    · rw [hcount, record_undecided, List.countP_cons]
      simp only [decide_eq_true_eq]
      omega
    · rw [hext, mem_record_extension hq]
      simp only [List.mem_cons, exists_eq_or_imp]
      exact or_assoc

theorem record_reaches (i : Interpretation) (table : SymbolTable) (atom : Symbol) (v : Truth) :
    Reaches table (i.record table atom v).2 := by
  cases v with
  | «false» => exact .refl
  | unknown => exact .refl
  | «true» =>
    simp only [record]
    split <;> exact SymbolTable.run_reaches (.head atom) table

theorem build_induction (a : Assignment) (table : SymbolTable)
    {motive : Interpretation × SymbolTable → Prop}
    (hstart : motive ({ Interpretation.empty with truths := a.truths }, table))
    (hrecord : ∀ built atom, motive built →
      motive (built.1.record built.2 atom (a.truth atom))) : motive (a.build table) := by
  rw [Assignment.build, ← Array.foldl_toList]
  exact List.foldlRecOn _ _ hstart fun built hbuilt atom _ => hrecord built atom hbuilt

theorem build_reaches (a : Assignment) (table : SymbolTable) : Reaches table (a.build table).2 := by
  refine build_induction a table (motive := fun built => Reaches table built.2) .refl ?_
  exact fun built atom h => h.trans (built.1.record_reaches built.2 atom _)

end Interpretation

namespace Assignment
variable {table : SymbolTable} {a : Assignment}

theorem Valid.truths_iff (h : Valid table a) {s : Symbol} {v : Truth} :
    a.truths[s]? = some v ↔ s ∈ a.order.toList ∧ a.truth s = v := by
  rw [h.mem_order, Std.ExtTreeMap.mem_iff_isSome_getElem?, truth]
  cases a.truths[s]? <;> simp

/-- Building a valid assignment stores nothing and gives an interpretation whose views agree. -/
theorem Valid.build (hv : Valid table a) :
    ∃ built : Interpretation, a.build table = (built, table) ∧ built.truths = a.truths ∧
      built.Snapshot table := by
  obtain ⟨built, hbuilt, hlist, htruths, hcount, hext⟩ := Interpretation.foldl_record a.truth
    a.order.toList (fun s hs => (hv.headed s hs).2) { Interpretation.empty with truths := a.truths }
  replace htruths : built.truths = a.truths := htruths
  replace hlist : built.atoms.toList = a.order.toList.map fun s => (s, a.truth s) := by
    simpa [Interpretation.empty] using hlist
  refine ⟨built, by rw [Assignment.build, ← Array.foldl_toList, hbuilt], htruths, ?_⟩
  constructor
  · rw [hlist, List.map_map]
    simpa [Function.comp_def] using hv.nodup
  · intro s v
    rw [htruths, hv.truths_iff, hlist, List.mem_map]
    constructor
    · rintro ⟨s', hs, he⟩
      obtain ⟨rfl, rfl⟩ := Prod.mk.inj he
      exact ⟨hs, rfl⟩
    · rintro ⟨hs, rfl⟩
      exact ⟨s, hs, rfl⟩
  · intro s v h
    rw [htruths, hv.truths_iff] at h
    exact hv.headed s h.1
  · intro p x
    rw [hext, htruths]
    simp only [hv.truths_iff, Interpretation.extension, Interpretation.empty]
    simp [and_assoc]
  · rw [hcount, hlist, List.countP_map]
    simp [Interpretation.empty, Function.comp_def]

end Assignment

theorem Interpretation.BuiltOn.reached {table : SymbolTable} {i : Interpretation}
    (h : i.BuiltOn table) : Reaches .empty table := by
  obtain ⟨a, before, hmade, -, hl⟩ := h
  exact (hmade.reached.trans (build_reaches a before)).trans hl

/-- The views of an interpretation that was built agree, in every later state of its table. -/
theorem Interpretation.BuiltOn.snapshot {table : SymbolTable} {i : Interpretation}
    (h : i.BuiltOn table) : i.Snapshot table := by
  obtain ⟨a, before, hmade, rfl, hl⟩ := h
  obtain ⟨built, hbuilt, -, hsnapshot⟩ := hmade.valid.build
  rw [hbuilt] at hl ⊢
  exact hsnapshot.extend (Reaches.grows hmade.reached.admits hl)

theorem Interpretation.BuiltOn.faithful {table : SymbolTable} {i : Interpretation}
    (h : i.BuiltOn table) (hb : table.size ≤ 2 ^ 31) : i.Faithful table :=
  h.snapshot.faithful (h.reached.wellFormed hb)

theorem Interpretation.BuiltOn.extend {table later : SymbolTable} {i : Interpretation}
    (h : i.BuiltOn table) (hl : Reaches table later) : i.BuiltOn later := by
  obtain ⟨a, before, hmade, hi, hr⟩ := h
  exact ⟨a, before, hmade, hi, hr.trans hl⟩

namespace Sample

/-- The constants `p`, `q`, `a` and `b`, and the atoms `p(a)`, `q(a)` and `p(b)`. -/
def threeAtoms : SymbolTable :=
  SymbolTable.empty.runAll [.constant "p", .constant "q", .constant "a", .constant "b",
    .atom [⟨0⟩, ⟨4⟩], .atom [⟨2⟩, ⟨4⟩], .atom [⟨0⟩, ⟨6⟩]]

/-- The atom `p(a)` is true and `q(a)` is false; `p(b)` may be either. -/
def oneLeft (truth : Truth) : Assignment :=
  ((Assignment.empty.set ⟨8⟩ .true).set ⟨10⟩ .false).set ⟨12⟩ truth

theorem oneLeft_madeOn (truth : Truth) : Assignment.MadeOn threeAtoms (oneLeft truth) := by
  have hstart : Assignment.MadeOn threeAtoms .empty := .start (runAll_reaches _ _)
  exact ((hstart.set rfl rfl .true).set rfl rfl .false).set rfl rfl truth

def leftWhen (truth : Truth) : Interpretation := ((oneLeft truth).build threeAtoms).1

theorem leftWhen_builtOn (truth : Truth) : (leftWhen truth).BuiltOn threeAtoms := by
  refine ⟨oneLeft truth, threeAtoms, oneLeft_madeOn truth, rfl, ?_⟩
  cases truth <;> exact .refl

theorem leftWhen_truths (truth : Truth) : (leftWhen truth).truths = (oneLeft truth).truths := by
  cases truth <;> rfl

theorem mem_leftWhen (truth : Truth) (b : Symbol) :
    b ∈ (leftWhen truth).truths ↔ b = ⟨12⟩ ∨ b = ⟨10⟩ ∨ b = ⟨8⟩ := by
  simp only [leftWhen_truths, oneLeft, Assignment.set, Assignment.empty, Std.ExtTreeMap.mem_insert,
    Std.LawfulEqCmp.compare_eq_iff_eq, Std.ExtTreeMap.not_mem_empty, or_false]
  simp only [eq_comm]

end Sample

end ExternalAtoms
