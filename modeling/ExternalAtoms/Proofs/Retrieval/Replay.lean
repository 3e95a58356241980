import ExternalAtoms.Proofs.Evaluation.OutputAtom
import ExternalAtoms.Proofs.Evaluation.Success
import ExternalAtoms.Proofs.Interpretation.Built

/-! # Running a retrieval again

What was stored once is found again, whatever has been stored since, and finding it stores nothing.
So a program that returned can be run again at any later time: every request is answered as before,
what was submitted is submitted again, and the table stays as it is. This is proved of each action,
and of a sequence of programs when it holds of both parts.
-/
namespace ExternalAtoms

namespace SymbolTable
variable {table later : SymbolTable} {s l : Symbol} {args : List Symbol}

theorem intern_again {t : Term} (hg : Grows (table.intern t).2 later) :
    later.intern t = ((table.intern t).1, later) :=
  intern_of_handles (hg.handles (table.handles_intern t))

theorem constant_again {text : String} (hg : Grows (table.constant text).2 later) :
    later.constant text = ((table.constant text).1, later) := by
  -- A constant is a function without arguments.
  have hfound : later.function text [] = (.ok (table.constant text).1, later) :=
    @function_again table later (table.constant text).1 text [] rfl hg
  obtain ⟨hs, htable⟩ := Prod.mk.inj hfound
  exact Prod.ext (Except.ok.inj hs) htable

theorem apply_again {name : NameId} (h : (table.apply name args).1 = .ok s)
    (hg : Grows (table.apply name args).2 later) : later.apply name args = (.ok s, later) := by
  have hl := (table.apply_extends name args).trans hg.toExtends
  unfold SymbolTable.apply at h hg ⊢
  cases args with
  | nil =>
    obtain rfl := Except.ok.inj h
    simp only [List.isEmpty_nil, if_true] at hg ⊢
    rw [intern_again hg]
  | cons arg rest =>
    simp only [List.isEmpty_cons, Bool.false_eq_true, if_false] at h hg ⊢
    cases hc : table.checkArguments (arg :: rest) with
    | error e => simp [hc] at h
    | ok _ =>
      simp only [hc] at h hg
      obtain rfl := Except.ok.inj h
      have hagain : later.checkArguments (arg :: rest) = .ok () :=
        checkArguments_ok_iff.mpr fun arg' ha =>
          (checkArguments_ok_iff.mp hc arg' ha).imp_right hl.isKnown
      rw [hagain, intern_again hg]

theorem Extends.headName {name : NameId} (hl : Extends table later)
    (h : table.headName s = .ok name) : later.headName s = .ok name := by
  obtain ⟨hpositive, hr, hn⟩ := headName_ok_iff.mp h
  exact headName_ok_iff.mpr ⟨hpositive, hl.resolve hr, hl.isPredicateName hn⟩

theorem atom_again {elements : List Symbol} (h : (table.atom elements).1 = .ok s)
    (hg : Grows (table.atom elements).2 later) : later.atom elements = (.ok s, later) := by
  have hl := (table.atom_extends elements).trans hg.toExtends
  cases elements with
  | nil => cases h
  | cons p args =>
    simp only [SymbolTable.atom] at h hg ⊢
    cases hp : table.headName p with
    | error e => simp [hp] at h
    | ok name =>
      simp only [hp] at h hg
      rw [hl.headName hp]
      exact apply_again h hg

/-- What was found to be an atom is one, and its head is stored. -/
theorem isAtom_again (h : (table.isAtom s).1 = true) (hg : Grows (table.isAtom s).2 later) :
    later.isAtom s = (true, later) := by
  obtain ⟨p, hp⟩ := Option.isSome_iff_exists.mp h
  have hhead : later.head s = (some p, later) := (headOf_of_head hp).extend hg
  simp only [SymbolTable.isAtom, hhead, Option.isSome_some]

theorem negate_again (h : (table.negate s).1 = .ok l) (hg : Grows (table.negate s).2 later) :
    later.negate s = (.ok l, later) := by
  have hl := (table.negate_extends s).trans hg.toExtends
  unfold SymbolTable.negate at h hg ⊢
  split at h
  · next hknown =>
    rw [if_pos hknown] at hg
    dsimp only at h hg
    split at h
    · next hatom =>
      rw [if_pos hatom] at hg
      rw [if_pos (hl.isKnown hknown), isAtom_again hatom hg]
      exact Prod.ext h rfl
    · cases h
  · cases h

theorem checkLiterals_again (ha : Admits table) {literals : List Symbol}
    (h : (table.checkLiterals literals).1 = .ok ())
    (hg : Grows (table.checkLiterals literals).2 later) :
    later.checkLiterals literals = (.ok (), later) := by
  induction literals generalizing table with
  | nil => rfl
  | cons literal rest ih =>
    have hasked := (run_reaches (.isAtom literal) table).grows ha
    unfold checkLiterals at h hg ⊢
    split at h
    · next hknown =>
      rw [if_pos hknown] at hg
      dsimp only at h hg
      split at h
      · next hatom =>
        rw [if_pos hatom] at hg
        have hrest := ((table.isAtom literal).2.checkLiterals_reaches rest).grows (hasked.admits ha)
        have hlater := hrest.trans hg
        rw [if_pos ((hasked.trans hlater).toExtends.isKnown hknown), isAtom_again hatom hlater]
        exact ih (hasked.admits ha) h hg
      · cases h
    · cases h

theorem checkNogood_again (ha : Admits table) {n : Nogood} (h : (table.checkNogood n).1 = .ok ())
    (hg : Grows (table.checkNogood n).2 later) : later.checkNogood n = (.ok (), later) := by
  unfold checkNogood at h hg ⊢
  split at h
  · cases h
  · next hne =>
    rw [if_neg hne] at hg ⊢
    exact checkLiterals_again ha h hg

end SymbolTable

open SymbolTable

/-- An accepted nogood is accepted again. -/
theorem Workspace.learn_again {w : Workspace} {n : Nogood} {later : SymbolTable}
    (ha : Admits w.table) (h : (w.learn n).1 = .ok ()) (hg : Grows (w.learn n).2.table later) :
    (⟨later, w.pending⟩ : Workspace).learn n = (.ok (), ⟨later, (w.learn n).2.pending⟩) := by
  unfold learn at h hg ⊢
  dsimp only at h hg ⊢
  cases hc : (w.table.checkNogood n).1 with
  | error e => simp [hc] at h
  | ok _ =>
    simp only [hc] at hg ⊢
    rw [checkNogood_again ha hc hg]

namespace Retrieval
variable {α β : Type} {i : Interpretation}

/-- Run again in any later table, the program returns what it returned, submits what it submitted
and stores nothing. The interpretation was built before. -/
def Repeats (i : Interpretation) (program : Retrieval α) : Prop :=
  ∀ (call : Invocation) (w : Workspace) (a : α) (w' : Workspace), i.BuiltOn w.table →
    program.run call w = (.ok a, w') → ∀ later, Grows w'.table later →
      program.run call ⟨later, w.pending⟩ = (.ok a, ⟨later, w'.pending⟩)

theorem Repeats.pure (value : α) : (pure value : Retrieval α).Repeats i := by
  intro call w a w' _ h later _
  obtain ⟨rfl, rfl⟩ := (run_pure_ok call).mp h
  rfl

theorem Repeats.fail (e : EvaluationError) : (fail e : Retrieval α).Repeats i := by
  intro call w a w' _ h
  cases h

theorem Repeats.bind {program : Retrieval α} {k : α → Retrieval β} (hp : program.Repeats i)
    (hk : ∀ a, (k a).Repeats i) : (program >>= k).Repeats i := by
  intro call w b w' hi h later hg
  obtain ⟨a, middle, hfirst, hsecond⟩ := (run_bind_ok call).mp h
  have hmiddle := hi.extend (reaches_of_run call hfirst)
  have hlater := ((reaches_of_run call hsecond).grows hmiddle.reached.admits).trans hg
  rw [run_bind_of_ok call (hp call w a middle hi hfirst later hlater)]
  exact hk a call middle b w' hmiddle hsecond later hg

theorem Repeats.forM {program : α → Retrieval Unit} (h : ∀ x, (program x).Repeats i)
    (xs : List α) : (xs.forM program).Repeats i := by
  induction xs with
  | nil => exact .pure ()
  | cons x rest ih => exact (h x).bind fun _ => ih

/-- A program that reads the table and stores nothing repeats what it read if this stays. -/
theorem Repeats.of_read {program : Retrieval α} (found : SymbolTable → α → Prop)
    (hrun : ∀ {call : Invocation} {w w' : Workspace} {a : α},
      program.run call w = (.ok a, w') ↔ found w.table a ∧ w = w')
    (hstays : ∀ {table later : SymbolTable} {a : α}, i.BuiltOn table → Grows table later →
      found table a → found later a) : program.Repeats i := by
  intro call w a w' hi h later hg
  obtain ⟨hfound, rfl⟩ := hrun.mp h
  exact hrun.mpr ⟨hstays hi hg hfound, rfl⟩

section Actions
variable (text : String) (value : Int64) (s : Symbol) (t : Tuple) (n : Nogood)

theorem repeats_constant : (constant text).Repeats i := by
  intro call w a w' _ h later hg
  rw [run_constant] at h
  obtain ⟨ha, rfl⟩ := Prod.mk.inj h
  obtain rfl := Except.ok.inj ha
  rw [run_constant, constant_again hg]

theorem repeats_string : (string text).Repeats i := by
  intro call w a w' _ h later hg
  rw [run_string] at h
  obtain ⟨ha, rfl⟩ := Prod.mk.inj h
  obtain rfl := Except.ok.inj ha
  rw [run_string, SymbolTable.string, constant_again hg]
  rfl

theorem repeats_integer : (integer value).Repeats i := by
  intro call w a w' _ h later hg
  rw [run_integer] at h
  obtain ⟨ha, rfl⟩ := Prod.mk.inj h
  obtain rfl := Except.ok.inj ha
  rw [run_integer, SymbolTable.integer, intern_again hg]
  rfl

theorem repeats_atom : (atom t).Repeats i := by
  intro call w a w' _ h later hg
  rw [run_atom, Prod.mk.injEq, mapError_eq_ok] at h
  obtain ⟨ha, rfl⟩ := h
  rw [run_atom, atom_again ha hg]
  rfl

theorem repeats_negate : (negate s).Repeats i := by
  intro call w a w' _ h later hg
  rw [run_negate, Prod.mk.injEq, mapError_eq_ok] at h
  obtain ⟨ha, rfl⟩ := h
  rw [run_negate, negate_again ha hg]
  rfl

theorem repeats_outputAtom : (outputAtom t).Repeats i := by
  intro call w a w' _ h later hg
  rw [run_outputAtom, Prod.mk.injEq, mapError_eq_ok] at h
  obtain ⟨ha, rfl⟩ := h
  have hagain : call.storeOutputAtom later t = (.ok a, later) := Invocation.outputOf_of_store ha hg
  rw [run_outputAtom, hagain]
  rfl

theorem repeats_learn : (learn n).Repeats i := by
  intro call w a w' hi h later hg
  rw [run_learn, Prod.mk.injEq, mapError_eq_ok] at h
  obtain ⟨ha, rfl⟩ := h
  rw [run_learn, Workspace.learn_again hi.reached.admits ha hg]
  rfl

end Actions

end Retrieval

end ExternalAtoms
