import ExternalAtoms.Proofs.Interpretation.Refinement
import Mathlib.Data.List.Nodup

/-! # What an interpretation shows of the calls that made it

The accepted calls, in order, are all that counts. The atoms of the interpretation are listed in the
order in which each was accepted first, with the value of its last call, and every other view can be
read off these values: the truth of a literal, whether the interpretation is partial, the extensions
and their sizes, and the predicates with a true atom. A refused call leaves no trace.
-/
namespace ExternalAtoms
open SymbolTable

/-- The handle is positive and the name of its term is an identifier. -/
def SymbolTable.IsPositiveAtom (table : SymbolTable) (s : Symbol) : Prop :=
  s.isNegated = false ∧ ∃ t name text, table.resolve? s = some t ∧ t.IsNamed name ∧
    table.names.resolve? name = some text ∧ Text.isIdentifier text = true

namespace Assignment
variable {table : SymbolTable} {a : Assignment} {atom s : Symbol} {truth : Truth}
  {accepted : List (Symbol × Truth)}

/-- An assignment with the calls that it accepted, the first one first. Between the calls anything
may be stored. -/
inductive History : List (Symbol × Truth) → SymbolTable → Assignment → Prop
  | start {table : SymbolTable} (h : Reaches .empty table) : History [] table .empty
  | store {accepted : List (Symbol × Truth)} {table : SymbolTable} {a : Assignment}
      (request : StoreRequest) (h : History accepted table a) :
      History accepted (request.run table).2 a
  | accept {accepted : List (Symbol × Truth)} {table : SymbolTable} {a : Assignment}
      {atom : Symbol} {truth : Truth} (h : History accepted table a)
      (ha : (a.assign table atom truth).result = .ok ()) :
      History (accepted ++ [(atom, truth)]) (a.assign table atom truth).table
        (a.assign table atom truth).assignment
  | refuse {accepted : List (Symbol × Truth)} {table : SymbolTable} {a : Assignment}
      {atom : Symbol} {truth : Truth} {e : StoreError} (h : History accepted table a)
      (ha : (a.assign table atom truth).result = .error e) :
      History accepted (a.assign table atom truth).table (a.assign table atom truth).assignment

/-- The value of the last accepted call for an atom. -/
def lastValue (accepted : List (Symbol × Truth)) (s : Symbol) : Option Truth :=
  accepted.reverse.lookup s

/-- The atoms of the accepted calls, in the order in which each was accepted first. -/
def firstOrder (accepted : List (Symbol × Truth)) : List Symbol :=
  (accepted.map Prod.fst).eraseDups

theorem lastValue_append :
    lastValue (accepted ++ [(atom, truth)]) s =
      if s = atom then some truth else lastValue accepted s := by
  rw [lastValue, List.reverse_append, List.reverse_singleton, List.singleton_append,
    List.lookup_cons]
  by_cases h : s = atom
  · simp [h]
  · rw [beq_false_of_ne h, if_neg h, lastValue]

theorem firstOrder_append : firstOrder (accepted ++ [(atom, truth)]) =
    if atom ∈ firstOrder accepted then firstOrder accepted
      else firstOrder accepted ++ [atom] := by
  simp only [firstOrder, List.map_append, List.map_cons, List.map_nil, List.eraseDups_append,
    List.mem_eraseDups]
  by_cases h : atom ∈ accepted.map Prod.fst
  · rw [if_pos h]
    simp [List.removeAll, h]
  · rw [if_neg h]
    simp [List.removeAll, h, List.eraseDups_cons]

theorem isPositiveAtom_iff : table.IsPositiveAtom atom ↔
    atom.isNegated = false ∧ (table.isAtom atom).1 = true := by
  simp only [IsPositiveAtom, isAtom_iff, isPredicateName_iff]
  grind

theorem assign_ok_iff :
    (a.assign table atom truth).result = .ok () ↔ table.IsPositiveAtom atom := by
  rw [isPositiveAtom_iff]
  rcases assign_cases a table atom truth with ⟨hrefused, e, ha⟩ | ⟨hatom, ha⟩ <;> rw [ha]
  · exact iff_of_false nofun fun ⟨hn, hatom⟩ => by simp [hn, hatom] at hrefused
  · exact iff_of_true rfl hatom

theorem assign_of_ok (h : (a.assign table atom truth).result = .ok ()) :
    a.assign table atom truth = ⟨.ok (), a.set atom truth, (table.head atom).2⟩ := by
  rcases assign_cases a table atom truth with ⟨-, e, ha⟩ | ⟨-, ha⟩
  · rw [ha] at h
    cases h
  · exact ha

theorem assign_of_error {e : StoreError} (h : (a.assign table atom truth).result = .error e) :
    (a.assign table atom truth).assignment = a ∧ (a.assign table atom truth).table = table := by
  rcases assign_cases a table atom truth with ⟨-, e', ha⟩ | ⟨-, ha⟩
  · rw [ha]
    exact ⟨rfl, rfl⟩
  · rw [ha] at h
    cases h

namespace History

theorem madeOn (h : History accepted table a) : MadeOn table a := by
  induction h with
  | start h => exact .start h
  | store request _ ih => exact .store request ih
  | accept _ _ ih => exact ih.assign _ _
  | refuse _ _ ih => exact ih.assign _ _

theorem order_truths (h : History accepted table a) :
    a.order.toList = firstOrder accepted ∧ ∀ s, a.truths[s]? = lastValue accepted s := by
  induction h with
  | start _ => exact ⟨rfl, fun s => by simp [Assignment.empty, lastValue]⟩
  | store _ _ ih => exact ih
  | refuse _ ha ih => rwa [(assign_of_error ha).1]
  | @accept accepted table a atom truth h ha ih =>
    rw [assign_of_ok ha]
    obtain ⟨horder, htruths⟩ := ih
    refine ⟨?_, fun s => ?_⟩
    · have hmem : atom ∈ firstOrder accepted ↔ atom ∈ a.truths := by
        rw [← horder, h.madeOn.valid.mem_order]
      rw [firstOrder_append, Assignment.set]
      by_cases hold : atom ∈ a.truths
      · rw [if_pos hold, if_pos (hmem.mpr hold), horder]
      · rw [if_neg hold, if_neg (mt hmem.mp hold), Array.toList_push, horder]
    · rw [lastValue_append, Assignment.set, Std.ExtTreeMap.getElem?_insert, htruths]
      simp only [Std.LawfulEqCmp.compare_eq_iff_eq, eq_comm (a := s)]

theorem set (h : History accepted table a) (hn : atom.isNegated = false)
    (hp : table.isAtom atom = (true, table)) (truth : Truth) :
    History (accepted ++ [(atom, truth)]) table (a.set atom truth) := by
  have hassign := assign_of_isAtom hn hp a truth
  have haccepted := h.accept (congrArg Outcome.result hassign)
  rwa [hassign] at haccepted

end History

end Assignment

namespace Sample

/-- Two atoms become true; the first of them then becomes undecided and in the end false. -/
def overridden : Assignment :=
  (((Assignment.empty.set ⟨8⟩ .true).set ⟨12⟩ .true).set ⟨8⟩ .unknown).set ⟨8⟩ .false

def overrides : List (Symbol × Truth) :=
  [(⟨8⟩, .true), (⟨12⟩, .true), (⟨8⟩, .unknown), (⟨8⟩, .false)]

/-- In the end the negation of the first atom is offered and refused. -/
theorem overridden_history : Assignment.History overrides threeAtoms overridden := by
  have hstart : Assignment.History [] threeAtoms .empty := .start (runAll_reaches _ _)
  have haccepted : Assignment.History overrides threeAtoms overridden :=
    (((hstart.set rfl rfl .true).set rfl rfl .true).set rfl rfl .unknown).set rfl rfl .false
  obtain ⟨e, he⟩ : ∃ e, (overridden.assign threeAtoms ⟨9⟩ .true).result = .error e := ⟨_, rfl⟩
  exact haccepted.refuse he

end Sample

namespace Interpretation
variable {i : Interpretation} {table : SymbolTable} {a p : Symbol}

def Occupied (i : Interpretation) : Prop := ∀ p ∈ i.extensions, ∃ x, x ∈ i.extension p

theorem record_occupied (h : i.Occupied) (table : SymbolTable) (atom : Symbol) (truth : Truth) :
    (i.record table atom truth).1.Occupied := by
  cases truth with
  | «false» => exact h
  | unknown => exact h
  | «true» =>
    simp only [record]
    split
    · exact h
    · next q _ =>
      intro p hp
      simp only [extension, Std.ExtTreeMap.getElem?_insert, Std.LawfulEqCmp.compare_eq_iff_eq]
      by_cases he : q = p
      · rw [if_pos he, Option.getD_some]
        exact ⟨_, Std.ExtTreeSet.mem_insert_self⟩
      · simp only [Std.ExtTreeMap.mem_insert, Std.LawfulEqCmp.compare_eq_iff_eq, he,
          false_or] at hp
        rw [if_neg he]
        exact h p hp

theorem build_occupied (a : Assignment) (table : SymbolTable) : (a.build table).1.Occupied := by
  refine build_induction a table (motive := fun built => built.1.Occupied) ?_ ?_
  · simp [Occupied, Interpretation.empty]
  · exact fun built atom h => record_occupied h built.2 atom _

theorem Occupied.mem_predicates (h : i.Occupied) :
    p ∈ i.predicates ↔ ∃ x, x ∈ i.extension p := by
  rw [predicates, Std.ExtTreeMap.mem_keys]
  constructor
  · exact h p
  · rintro ⟨x, hx⟩
    rw [Std.ExtTreeMap.mem_iff_isSome_getElem?, Option.isSome_iff_ne_none]
    intro hnone
    simp [extension, hnone] at hx

theorem build_atoms (a : Assignment) (table : SymbolTable) :
    (a.build table).1.atoms.toList = a.order.toList.map fun s => (s, a.truth s) := by
  have hfold : ∀ (atoms : List Symbol) (i : Interpretation) (table : SymbolTable),
      (atoms.foldl (fun built atom => built.1.record built.2 atom (a.truth atom))
        (i, table)).1.atoms.toList = i.atoms.toList ++ atoms.map fun s => (s, a.truth s) := by
    intro atoms
    induction atoms with
    | nil => simp
    | cons atom rest ih =>
      intro i table
      rw [List.foldl_cons, ih, record_atoms]
      simp
  rw [Assignment.build, ← Array.foldl_toList, hfold]
  simp [Interpretation.empty]

/-- Every view is determined by the first places and the last values of the accepted calls. -/
structure Views (accepted : List (Symbol × Truth)) (table : SymbolTable) (i : Interpretation) :
    Prop where
  order : i.atoms.toList.map Prod.fst = Assignment.firstOrder accepted
  nodup : (i.atoms.toList.map Prod.fst).Nodup
  values : ∀ entry ∈ i.atoms.toList, Assignment.lastValue accepted entry.1 = some entry.2
  truth : ∀ literal : Symbol, i.truth literal =
    let value := (Assignment.lastValue accepted literal.positive).getD .false
    if literal.isNegated then value.negate else value
  isPartial : i.isPartial = true ↔ ∃ a, Assignment.lastValue accepted a = some .unknown
  mem_extension : ∀ p x, x ∈ i.extension p ↔
    ∃ a, Assignment.lastValue accepted a = some .true ∧ (table.head a).1 = some p ∧
      table.arguments a = x
  size_extension : ∀ p, (i.extension p).size =
    i.trueAtoms.countP fun a => (table.head a).1 = some p
  extension_empty : ∀ p, p.isNegated = true ∨ table.isPredicateConstant p = false →
    i.extension p = ∅
  mem_predicates : ∀ p, p ∈ i.predicates ↔
    ∃ a, Assignment.lastValue accepted a = some .true ∧ (table.head a).1 = some p

namespace Snapshot

theorem nodup_trueAtoms (h : i.Snapshot table) : i.trueAtoms.Nodup :=
  h.nodup.sublist (List.filter_sublist.map Prod.fst)

theorem head_iff (h : i.Snapshot table) {v : Truth} (ha : i.truths[a]? = some v) :
    (table.head a).1 = some p ↔ table.HeadOf a p := by
  obtain ⟨-, q, hq⟩ := h.headed a v ha
  exact hq.iff_head.symm

/-- Distinct true atoms with one head have distinct arguments, so none is lost in the extension. -/
theorem size_extension (h : i.Snapshot table) (hw : WellFormed table) (p : Symbol) :
    (i.extension p).size = i.trueAtoms.countP fun a => (table.head a).1 = some p := by
  have hatom : ∀ a ∈ i.trueAtoms.filter fun a => (table.head a).1 = some p,
      table.AtomOf p (table.arguments a) a := by
    intro a ha
    obtain ⟨htrue, hhead⟩ := List.mem_filter.mp ha
    have hvalue := (mem_trueAtoms h).mp htrue
    have hp := (h.head_iff hvalue).mp (by simpa using hhead)
    exact ⟨(h.headed a _ hvalue).1, hp.headedBy hw, rfl⟩
  -- distinct true atoms with one head have distinct arguments, so none is lost in the set
  have hnodup : ((i.trueAtoms.filter fun a => (table.head a).1 = some p).map
      table.arguments).Nodup := by
    refine List.Nodup.map_on (fun a ha b hb he => ?_) (h.nodup_trueAtoms.filter _)
    exact (hatom a ha).unique hw (he ▸ hatom b hb)
  have hmembers : ∀ x, x ∈ (i.extension p).toList ↔ x ∈ (i.trueAtoms.filter fun a =>
      (table.head a).1 = some p).map table.arguments := by
    intro x
    rw [Std.ExtTreeSet.mem_toList, h.mem_extension]
    simp only [List.mem_map, List.mem_filter, mem_trueAtoms h, decide_eq_true_eq]
    constructor
    · rintro ⟨a, ha, hp, hx⟩
      exact ⟨a, ⟨ha, (h.head_iff ha).mpr hp⟩, hx⟩
    · rintro ⟨a, ⟨ha, hp⟩, hx⟩
      exact ⟨a, ha, (h.head_iff ha).mp hp, hx⟩
  have hperm := (List.perm_ext_iff_of_nodup (i.extension p).nodup_toList hnodup).mpr hmembers
  rw [← Std.ExtTreeSet.length_toList, hperm.length_eq, List.length_map,
    List.countP_eq_length_filter]

theorem extension_empty (h : i.Snapshot table) (hw : WellFormed table)
    (hp : p.isNegated = true ∨ table.isPredicateConstant p = false) : i.extension p = ∅ := by
  refine Std.ExtTreeSet.ext_mem fun x => ?_
  refine iff_of_false (fun hx => ?_) Std.ExtTreeSet.not_mem_empty
  obtain ⟨a, -, ha, -⟩ := (h.mem_extension p x).mp hx
  obtain ⟨hpositive, name, t, hr, hname, -⟩ := ha.headedBy hw
  rcases hp with hp | hp
  · simp [hp] at hpositive
  · simp [isPredicateConstant, hr, hname] at hp

theorem extension_mono {j : Interpretation} (hi : i.Snapshot table) (hj : j.Snapshot table)
    (hij : i.RefinedBy j) {x : Tuple} (hx : x ∈ i.extension p) : x ∈ j.extension p := by
  obtain ⟨a, ha, hp, hargs⟩ := (hi.mem_extension p x).mp hx
  exact (hj.mem_extension p x).mpr ⟨a, hij.keeps a _ ha (by decide), hp, hargs⟩

end Snapshot

theorem views_of_history {accepted : List (Symbol × Truth)} {later : SymbolTable} {a : Assignment}
    (h : Assignment.History accepted table a) (hl : Reaches (a.build table).2 later)
    (hb : later.size ≤ 2 ^ 31) : (a.build table).1.Views accepted later := by
  have hbuilt : (a.build table).1.BuiltOn later := ⟨a, table, h.madeOn, rfl, hl⟩
  have hs := hbuilt.snapshot
  have hw := hbuilt.reached.wellFormed hb
  obtain ⟨horder, hvalues⟩ := h.order_truths
  have htruths : ∀ s, (a.build table).1.truths[s]? = Assignment.lastValue accepted s := by
    obtain ⟨built, hbuild, he, -⟩ := h.madeOn.valid.build
    rw [hbuild, he]
    exact hvalues
  have hextension : ∀ p x, x ∈ (a.build table).1.extension p ↔
      ∃ b, Assignment.lastValue accepted b = some .true ∧ (later.head b).1 = some p ∧
        later.arguments b = x := by
    intro p x
    rw [hs.mem_extension]
    refine exists_congr fun b => ?_
    rw [htruths]
    refine and_congr_right fun hb => ?_
    rw [hs.head_iff ((htruths b).trans hb)]
  constructor
  · rw [build_atoms, List.map_map, ← horder]
    exact List.map_id _
  · exact hs.nodup
  · exact fun entry hentry => (htruths _).symm.trans ((hs.mem_atoms _ _).mp hentry)
  · intro literal
    rw [truth, htruths]
  · rw [hs.isPartial_iff]
    simp only [htruths]
  · exact hextension
  · exact hs.size_extension hw
  · exact fun p hp => hs.extension_empty hw hp
  · intro p
    rw [(build_occupied a table).mem_predicates]
    simp only [hextension]
    constructor
    · rintro ⟨x, b, hb, hp, -⟩
      exact ⟨b, hb, hp⟩
    · rintro ⟨b, hb, hp⟩
      exact ⟨_, b, hb, hp, rfl⟩

/-- The views of an interpretation agree with the calls that were accepted, and these are the ones
for known positive atoms. -/
theorem views_agree {accepted : List (Symbol × Truth)} {later : SymbolTable} {a : Assignment}
    (h : Assignment.History accepted table a) (hl : Reaches (a.build table).2 later)
    (hb : later.size ≤ 2 ^ 31) :
    (∀ atom truth, ((a.assign table atom truth).result = .ok () ↔ table.IsPositiveAtom atom) ∧
      ∀ e, (a.assign table atom truth).result = .error e →
        (a.assign table atom truth).assignment = a ∧
          (a.assign table atom truth).table = table) ∧
    (a.build table).1.Views accepted later ∧
    ∀ j : Interpretation, j.BuiltOn later → (a.build table).1.RefinedBy j →
      ∀ p x, x ∈ (a.build table).1.extension p → x ∈ j.extension p := by
  refine ⟨fun atom truth => ⟨Assignment.assign_ok_iff, fun e => Assignment.assign_of_error⟩,
    views_of_history h hl hb, fun j hj hij p x hx => ?_⟩
  have hi : (a.build table).1.BuiltOn later := ⟨a, table, h.madeOn, rfl, hl⟩
  exact hi.snapshot.extension_mono hj.snapshot hij hx

/-- Of the atom that was overridden only the place and the last value are left. -/
theorem views_agree_overridden :
    Sample.threeAtoms.size ≤ 2 ^ 31 ∧
      (Sample.overridden.build Sample.threeAtoms).1.Views Sample.overrides Sample.threeAtoms ∧
      (Sample.overridden.build Sample.threeAtoms).1.atoms.toList.map Prod.fst = [⟨8⟩, ⟨12⟩] ∧
      (Sample.overridden.build Sample.threeAtoms).1.isPartial = false := by
  have hb : Sample.threeAtoms.size ≤ 2 ^ 31 := by decide
  have hviews := (views_agree Sample.overridden_history .refl hb).2.1
  exact ⟨hb, hviews, hviews.order, rfl⟩

end Interpretation

end ExternalAtoms
