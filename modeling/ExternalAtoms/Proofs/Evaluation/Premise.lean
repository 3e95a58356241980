import ExternalAtoms.Evaluation.Learning
import ExternalAtoms.Proofs.Interpretation.Built

/-! # What the premise of a nogood consists of

The scan for a premise asks for the heads of the atoms of an interpretation. It gives up exactly
when an atom of some predicate input may still change the answer, and otherwise collects exactly the
literals that the atoms of the predicate inputs contribute. Which atoms belong to an input can be
read off any table in which the scan has asked for their heads; when the heads of all atoms are
stored, that is the table that the scan began with.
-/
namespace ExternalAtoms
open SymbolTable

/-- At this position a predicate is an input, and the interpretation gives this value to an atom
of it. -/
def Invocation.InputAtom (call : Invocation) (table : SymbolTable) (i : Interpretation)
    (index : Nat) (a : Symbol) (v : Truth) : Prop :=
  ∃ p, call.input[index]? = some p ∧ call.signature.kindAt index = some .predicate ∧
    table.HeadedBy a p ∧ i.truths[a]? = some v

/-- At this position a predicate is an input, and the interpretation lists an atom that it heads
with this value. -/
def Invocation.ListedAtom (call : Invocation) (table : SymbolTable) (i : Interpretation)
    (index : Nat) (a : Symbol) (v : Truth) : Prop :=
  ∃ p, call.input[index]? = some p ∧ call.signature.kindAt index = some .predicate ∧
    table.HeadOf a p ∧ (a, v) ∈ i.atoms.toList

/-- The same for the arguments from a position on. -/
def Signature.ListedFrom (s : Signature) (table : SymbolTable) (i : Interpretation)
    (index : Nat) (input : List Symbol) (k : Nat) (a : Symbol) (v : Truth) : Prop :=
  ∃ n p, k = index + n ∧ input[n]? = some p ∧ s.kindAt k = some .predicate ∧
    table.HeadOf a p ∧ (a, v) ∈ i.atoms.toList

theorem Signature.listedFrom_cons {s : Signature} {table : SymbolTable} {i : Interpretation}
    {index : Nat} {arg : Symbol} {rest : List Symbol} {k : Nat} {a : Symbol} {v : Truth} :
    s.ListedFrom table i index (arg :: rest) k a v ↔
      (k = index ∧ s.kindAt k = some .predicate ∧ table.HeadOf a arg ∧ (a, v) ∈ i.atoms.toList) ∨
        s.ListedFrom table i (index + 1) rest k a v := by
  constructor
  · rintro ⟨n, p, rfl, hp, hk⟩
    cases n with
    | zero =>
      obtain rfl : arg = p := Option.some.inj hp
      exact Or.inl ⟨rfl, hk⟩
    | succ n => exact Or.inr ⟨n, p, by omega, hp, hk⟩
  · rintro (⟨rfl, hk⟩ | ⟨n, p, rfl, hp, hk⟩)
    · exact ⟨0, arg, rfl, rfl, hk⟩
    · exact ⟨n + 1, p, by omega, hp, hk⟩

def Contribution.literals? : Contribution → Option (List Symbol)
  | .literal s => some [s]
  | .nothing => some []
  | .undecided => none

/-- The outcome of a scan over positioned atoms: nothing if one of them is undecided, otherwise the
literals that they contribute. -/
def Properties.Collects (p : Properties) (member : Nat → Symbol → Truth → Prop) :
    Option (List Symbol) → Prop
  | none => ∃ index a v, member index a v ∧ p.contribution index a v = .undecided
  | some literals =>
    (∀ index a v, member index a v → p.contribution index a v ≠ .undecided) ∧
      ∀ l, l ∈ literals ↔ ∃ index a v, member index a v ∧ p.contribution index a v = .literal l

/-- An undecided atom may still change the answer, unless it can only add to it. -/
theorem Properties.contribution_eq_undecided_iff {p : Properties} {index : Nat} {a : Symbol}
    {v : Truth} :
    p.contribution index a v = .undecided ↔ v = .unknown ∧ p.isMonotonic index = false := by
  cases v <;> simp only [contribution] <;> split <;> simp_all

namespace Properties
variable {p : Properties} {member member' : Nat → Symbol → Truth → Prop}

theorem Collects.congr {found : Option (List Symbol)} (h : p.Collects member found)
    (he : ∀ index a v, member index a v ↔ member' index a v) : p.Collects member' found := by
  rwa [show member' = member from funext fun index => funext fun a => funext fun v =>
    propext (he index a v).symm]

theorem Collects.empty (h : ∀ index a v, ¬member index a v) : p.Collects member (some []) :=
  ⟨fun index a v hm => absurd hm (h index a v), by simp [h]⟩

theorem Collects.append {found found' : Option (List Symbol)} (h : p.Collects member found)
    (h' : p.Collects member' found') :
    p.Collects (fun index a v => member index a v ∨ member' index a v)
      (found.bind fun literals => found'.map (literals ++ ·)) := by
  cases found with
  | none =>
    obtain ⟨index, a, v, hm, hu⟩ := h
    exact ⟨index, a, v, Or.inl hm, hu⟩
  | some literals =>
    cases found' with
    | none =>
      obtain ⟨index, a, v, hm, hu⟩ := h'
      exact ⟨index, a, v, Or.inr hm, hu⟩
    | some literals' =>
      refine ⟨fun index a v hm => ?_, fun l => ?_⟩
      · rcases hm with hm | hm
        · exact h.1 index a v hm
        · exact h'.1 index a v hm
      · rw [List.mem_append, h.2, h'.2]
        constructor
        · rintro (⟨index, a, v, hm, hl⟩ | ⟨index, a, v, hm, hl⟩)
          · exact ⟨index, a, v, Or.inl hm, hl⟩
          · exact ⟨index, a, v, Or.inr hm, hl⟩
        · rintro ⟨index, a, v, hm | hm, hl⟩
          · exact Or.inl ⟨index, a, v, hm, hl⟩
          · exact Or.inr ⟨index, a, v, hm, hl⟩

theorem Collects.single (index : Nat) (atom : Symbol) (truth : Truth) :
    p.Collects (fun k a v => k = index ∧ a = atom ∧ v = truth)
      (p.contribution index atom truth).literals? := by
  cases hc : p.contribution index atom truth with
  | undecided => exact ⟨index, atom, truth, ⟨rfl, rfl, rfl⟩, hc⟩
  | nothing =>
    refine ⟨?_, fun l => ⟨by simp, ?_⟩⟩
    · rintro k a v ⟨rfl, rfl, rfl⟩
      simp [hc]
    · rintro ⟨k, a, v, ⟨rfl, rfl, rfl⟩, hl⟩
      simp [hc] at hl
  | literal s =>
    refine ⟨?_, fun l => ⟨fun hl => ?_, ?_⟩⟩
    · rintro k a v ⟨rfl, rfl, rfl⟩
      simp [hc]
    · obtain rfl := List.mem_singleton.mp hl
      exact ⟨index, atom, truth, ⟨rfl, rfl, rfl⟩, hc⟩
    · rintro ⟨k, a, v, ⟨rfl, rfl, rfl⟩, hl⟩
      exact List.mem_singleton.mpr (Contribution.literal.inj (hl.symm.trans hc))

theorem premiseAt_cons (p : Properties) (index : Nat) (predicate atom : Symbol) (truth : Truth)
    (rest : List (Symbol × Truth)) (table : SymbolTable) :
    p.premiseAt index predicate ((atom, truth) :: rest) table =
      if (table.head atom).1 = some predicate then
        ((p.contribution index atom truth).literals?.bind fun literals =>
            (p.premiseAt index predicate rest (table.head atom).2).1.map (literals ++ ·),
          if p.contribution index atom truth = .undecided then (table.head atom).2
          else (p.premiseAt index predicate rest (table.head atom).2).2)
      else p.premiseAt index predicate rest (table.head atom).2 := by
  simp only [premiseAt]
  split
  · cases p.contribution index atom truth <;> simp [Contribution.literals?]
  · rfl

section Scan
variable {table later : SymbolTable}

theorem premiseAt_grows (p : Properties) (index : Nat) (predicate : Symbol)
    (entries : List (Symbol × Truth)) (ha : Admits table) :
    GrowsByConstants table (p.premiseAt index predicate entries table).2 := by
  induction entries generalizing table with
  | nil => exact .refl table
  | cons entry rest ih =>
    have hasked := GrowsByConstants.head ha entry.1
    have hrest := hasked.trans (ih (hasked.grows.admits ha))
    rw [premiseAt_cons]
    split
    · dsimp only
      split
      · exact hasked
      · exact hrest
    · exact hrest

theorem premiseAt_table (p : Properties) (index : Nat) (predicate : Symbol)
    {entries : List (Symbol × Truth)} (hheads : ∀ entry ∈ entries, ∃ q, table.HeadOf entry.1 q) :
    (p.premiseAt index predicate entries table).2 = table := by
  induction entries with
  | nil => rfl
  | cons entry rest ih =>
    obtain ⟨q, hq⟩ := hheads entry List.mem_cons_self
    rw [premiseAt_cons, show table.head entry.1 = (some q, table) from hq,
      ih fun entry he => hheads entry (List.mem_cons_of_mem _ he)]
    split
    · exact ite_self table
    · exact ih fun entry he => hheads entry (List.mem_cons_of_mem _ he)

theorem premiseAt_collects (p : Properties) (index : Nat) (predicate : Symbol)
    (entries : List (Symbol × Truth)) (ha : Admits table)
    (hknown : ∀ entry ∈ entries,
      (table.isAtom entry.1).1 = true ∨ table.isKnown predicate = true)
    (hl : GrowsByConstants (p.premiseAt index predicate entries table).2 later) :
    p.Collects (fun k a v => k = index ∧ later.HeadOf a predicate ∧ (a, v) ∈ entries)
      (p.premiseAt index predicate entries table).1 := by
  induction entries generalizing table with
  | nil => exact .empty (by simp)
  | cons entry rest ih =>
    obtain ⟨atom, truth⟩ := entry
    have hgrows := GrowsByConstants.head ha atom
    have hrest := p.premiseAt_grows index predicate rest (hgrows.grows.admits ha)
    -- later questions store constants only, so the head of this atom is the one it has in the end
    have hasked : GrowsByConstants (table.head atom).2 later := by
      rw [premiseAt_cons] at hl
      split at hl
      · dsimp only at hl
        split at hl
        · exact hl
        · exact hrest.trans hl
      · exact hrest.trans hl
    have hfirst := hasked.head_iff ha (hknown _ List.mem_cons_self)
    have hothers := ih (hgrows.grows.admits ha) fun entry he =>
      (hknown entry (List.mem_cons_of_mem _ he)).imp hgrows.grows.toExtends.isAtom
        hgrows.grows.toExtends.isKnown
    rw [premiseAt_cons] at hl ⊢
    split
    · next hp =>
      rw [if_pos hp] at hl
      by_cases hu : p.contribution index atom truth = .undecided
      · rw [hu]
        exact ⟨index, atom, truth, ⟨rfl, hfirst.mp hp, List.mem_cons_self⟩, hu⟩
      · rw [if_neg hu] at hl
        refine ((Properties.Collects.single index atom truth).append (hothers hl)).congr ?_
        intro k a v
        rw [List.mem_cons, Prod.mk.injEq]
        constructor
        · rintro (⟨rfl, rfl, rfl⟩ | ⟨rfl, ha, hm⟩)
          · exact ⟨rfl, hfirst.mp hp, Or.inl ⟨rfl, rfl⟩⟩
          · exact ⟨rfl, ha, Or.inr hm⟩
        · rintro ⟨rfl, ha, ⟨rfl, rfl⟩ | hm⟩
          · exact Or.inl ⟨rfl, rfl, rfl⟩
          · exact Or.inr ⟨rfl, ha, hm⟩
    · next hp =>
      rw [if_neg hp] at hl
      refine (hothers hl).congr fun k a v => ?_
      rw [List.mem_cons, Prod.mk.injEq]
      constructor
      · rintro ⟨rfl, ha, hm⟩
        exact ⟨rfl, ha, Or.inr hm⟩
      · rintro ⟨rfl, ha, ⟨rfl, rfl⟩ | hm⟩
        · exact absurd (hfirst.mpr ha) hp
        · exact ⟨rfl, ha, hm⟩

end Scan

end Properties

namespace Signature
variable {table later : SymbolTable} {i : Interpretation}

theorem premiseFrom_grows (s : Signature) (i : Interpretation) (index : Nat) (input : List Symbol)
    (ha : Admits table) : GrowsByConstants table (s.premiseFrom i index input table).2 := by
  induction input generalizing index table with
  | nil => exact .refl table
  | cons arg rest ih =>
    have hhere := s.properties.premiseAt_grows index arg i.atoms.toList ha
    simp only [premiseFrom]
    split
    · split
      · exact hhere
      · exact hhere.trans (ih _ (hhere.grows.admits ha))
    · exact ih _ ha

theorem premiseFrom_table (s : Signature) (index : Nat) (input : List Symbol)
    (hheads : ∀ entry ∈ i.atoms.toList, ∃ q, table.HeadOf entry.1 q) :
    (s.premiseFrom i index input table).2 = table := by
  induction input generalizing index with
  | nil => rfl
  | cons arg rest ih =>
    have hhere := s.properties.premiseAt_table index arg hheads
    simp only [premiseFrom]
    split
    · split
      · exact hhere
      · dsimp only
        rw [hhere]
        exact ih _
    · exact ih _

theorem premiseFrom_collects (s : Signature) (index : Nat) {input : List Symbol} (ha : Admits table)
    (hknown : ∀ entry ∈ i.atoms.toList, (table.isAtom entry.1).1 = true ∨
      ∀ arg ∈ input, table.isKnown arg = true)
    (hl : GrowsByConstants (s.premiseFrom i index input table).2 later) :
    s.properties.Collects (s.ListedFrom later i index input)
      (s.premiseFrom i index input table).1 := by
  induction input generalizing index table with
  | nil => exact .empty (by simp [ListedFrom])
  | cons arg rest ih =>
    have hgrows := s.properties.premiseAt_grows index arg i.atoms.toList ha
    have hargs := fun entry he => (hknown entry he).imp_right fun h =>
      h arg List.mem_cons_self
    -- the other positions are scanned in whatever table the scan of this one leaves
    have hothers : ∀ {table' : SymbolTable}, GrowsByConstants table table' →
        GrowsByConstants (s.premiseFrom i (index + 1) rest table').2 later →
        s.properties.Collects (s.ListedFrom later i (index + 1) rest)
          (s.premiseFrom i (index + 1) rest table').1 := by
      intro table' h hl
      refine ih (index + 1) (h.grows.admits ha) (fun entry he => ?_) hl
      exact (hknown entry he).imp h.grows.toExtends.isAtom fun hk arg harg =>
        h.grows.toExtends.isKnown (hk arg (List.mem_cons_of_mem _ harg))
    simp only [premiseFrom] at hl ⊢
    by_cases hk : s.kindAt index = some .predicate
    · rw [if_pos hk] at hl ⊢
      have hhere : GrowsByConstants _ later → _ :=
        s.properties.premiseAt_collects index arg i.atoms.toList ha hargs
      cases hf : (s.properties.premiseAt index arg i.atoms.toList table).1 with
      | none =>
        rw [hf] at hl hhere
        obtain ⟨k, a, v, ⟨rfl, hm⟩, hu⟩ := hhere hl
        exact ⟨k, a, v, listedFrom_cons.mpr (Or.inl ⟨rfl, hk, hm⟩), hu⟩
      | some literals =>
        rw [hf] at hl hhere
        have hrest := s.premiseFrom_grows i (index + 1) rest (hgrows.grows.admits ha)
        have hboth := (hhere (hrest.trans hl)).append (hothers hgrows hl)
        refine hboth.congr fun k a v => ?_
        rw [listedFrom_cons]
        refine or_congr_left ⟨?_, ?_⟩
        · rintro ⟨rfl, hm⟩
          exact ⟨rfl, hk, hm⟩
        · rintro ⟨rfl, -, hm⟩
          exact ⟨rfl, hm⟩
    · rw [if_neg hk] at hl ⊢
      refine (hothers (.refl table) hl).congr fun k a v => ?_
      rw [listedFrom_cons]
      refine (or_iff_right ?_).symm
      rintro ⟨rfl, hk', -⟩
      exact hk hk'

end Signature

namespace Invocation
variable (call : Invocation) {table later : SymbolTable} {i : Interpretation}

theorem premise_table (hheads : ∀ entry ∈ i.atoms.toList, ∃ q, table.HeadOf entry.1 q) :
    (call.premise i table).2 = table :=
  call.signature.premiseFrom_table 0 call.input hheads

/-- The premise of a call is collected from the listed atoms of its predicate inputs. Each must be
an atom when the scan begins, unless the input is known. -/
theorem premise_collects_listed (ha : Admits table)
    (hknown : ∀ entry ∈ i.atoms.toList, (table.isAtom entry.1).1 = true ∨
      ∀ arg ∈ call.input, table.isKnown arg = true)
    (hl : GrowsByConstants (call.premise i table).2 later) :
    call.signature.properties.Collects (call.ListedAtom later i) (call.premise i table).1 := by
  refine (call.signature.premiseFrom_collects 0 ha hknown hl).congr fun k a v => ?_
  constructor
  · rintro ⟨n, p, hk, hp⟩
    obtain rfl : k = n := by omega
    exact ⟨p, hp⟩
  · rintro ⟨p, hp⟩
    exact ⟨k, p, (Nat.zero_add k).symm, hp⟩

theorem premise_collects_of_snapshot (ha : Admits table) (hi : i.Snapshot table) :
    (call.premise i table).2 = table ∧
      call.signature.properties.Collects (call.ListedAtom table i) (call.premise i table).1 := by
  have hheads : ∀ entry ∈ i.atoms.toList, ∃ q, table.HeadOf entry.1 q := fun entry he =>
    (hi.headed entry.1 entry.2 ((hi.mem_atoms _ _).mp he)).2
  have htable := call.premise_table hheads
  refine ⟨htable, call.premise_collects_listed ha (fun entry he => ?_) ?_⟩
  · obtain ⟨q, hq⟩ := hheads entry he
    exact Or.inl (congrArg Option.isSome hq.fst)
  · rw [htable]
    exact .refl table

theorem premise_collects (hw : WellFormed table) (hi : i.Faithful table) :
    (call.premise i table).2 = table ∧
      call.signature.properties.Collects (call.InputAtom table i) (call.premise i table).1 := by
  have hsnapshot : i.Snapshot table := by rwa [Interpretation.Snapshot, hw.headOf_eq]
  obtain ⟨htable, hcollects⟩ := call.premise_collects_of_snapshot hw.admits hsnapshot
  refine ⟨htable, hcollects.congr fun k a v => ?_⟩
  simp only [ListedAtom, InputAtom, hw.headOf_eq, hi.mem_atoms]

end Invocation

end ExternalAtoms
