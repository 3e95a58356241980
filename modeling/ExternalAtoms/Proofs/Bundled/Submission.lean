import ExternalAtoms.Proofs.Bundled.Differences
import ExternalAtoms.Proofs.Traversal

/-! # The nogoods that an atom submits

Only one of the bundled atoms submits nogoods. For every tuple that it reports it submits that the
tuple cannot be in the first extension, not in the second, and no output. Under every interpretation
in which the first two hold, the tuple is in the difference.
-/
namespace ExternalAtoms
open SymbolTable

namespace Bundled
variable {call : Invocation} {table later final : SymbolTable} {p s : Symbol} {t : Tuple}
  {n : Nogood} {w w' : Workspace}

/-- The tuple is an argument of `p` and not of `s`, and yet not an output: that is excluded. -/
def Excludes (call : Invocation) (table : SymbolTable) (p s : Symbol) (t : Tuple) (n : Nogood) :
    Prop :=
  ∃ member other output, table.AtomOf p t member ∧ table.AtomOf s t other ∧
    call.IsOutputAtom table t output ∧ n = .ofList [member, other.flip, output.flip]

theorem Excludes.extend (h : Excludes call table p s t n) (hl : Extends table later) :
    Excludes call later p s t n := by
  obtain ⟨member, other, output, hm, ho, hout, hn⟩ := h
  exact ⟨member, other, output, hm.extend hl, ho.extend hl, hout.extend hl, hn⟩

section Run
variable {a l o : Symbol}

theorem atom_run_ok (hw : WellFormed w.table) {args : List Symbol}
    (h : (Retrieval.atom (p :: args)).run call w = (.ok a, w')) (hb : w'.table.size ≤ 2 ^ 31) :
    w'.table.AtomOf p args a ∧ w'.pending = w.pending := by
  rw [Retrieval.run_atom, Prod.mk.injEq, Retrieval.mapError_eq_ok] at h
  obtain ⟨ha, rfl⟩ := h
  exact ⟨hw.atomOf ha hb, rfl⟩

theorem negate_run_ok (h : (Retrieval.negate a).run call w = (.ok l, w')) :
    l = a.flip ∧ w'.pending = w.pending := by
  rw [Retrieval.run_negate, Prod.mk.injEq, Retrieval.mapError_eq_ok] at h
  obtain ⟨hl, rfl⟩ := h
  refine ⟨?_, rfl⟩
  unfold SymbolTable.negate at hl
  split at hl
  · dsimp only at hl
    split at hl
    · exact (Except.ok.inj hl).symm
    · simp at hl
  · simp at hl

theorem outputAtom_run_ok (hw : WellFormed w.table)
    (h : (Retrieval.outputAtom t).run call w = (.ok o, w')) (hb : w'.table.size ≤ 2 ^ 31) :
    call.IsOutputAtom w'.table t o ∧ w'.pending = w.pending := by
  rw [Retrieval.run_outputAtom, Prod.mk.injEq, Retrieval.mapError_eq_ok] at h
  obtain ⟨ho, rfl⟩ := h
  exact ⟨Invocation.isOutputAtom_of_store hw ho hb, rfl⟩

end Run

theorem learnOutput_ok (hw : WellFormed w.table)
    (h : (learnOutput p s t).run call w = (.ok (), w')) (hb : w'.table.size ≤ 2 ^ 31) :
    ∃ n, Excludes call w'.table p s t n ∧ w'.pending = w.pending.push n := by
  simp only [learnOutput, Retrieval.run_bind_ok] at h
  obtain ⟨member, w₁, hmember, other, w₂, hother, nonMember, w₃, hnon, output, w₄, houtput,
    notOutput, w₅, hnot, hlearn⟩ := h
  -- every state on the way is well formed, and what is stored at one is stored at all later ones
  have hr₅ := Retrieval.reaches_of_run _ hlearn
  have hr₄ := (Retrieval.reaches_of_run _ hnot).trans hr₅
  have hr₃ := (Retrieval.reaches_of_run _ houtput).trans hr₄
  have hr₂ := (Retrieval.reaches_of_run _ hnon).trans hr₃
  have hr₁ := (Retrieval.reaches_of_run _ hother).trans hr₂
  have hle₁ := Nat.le_trans hr₁.size_le hb
  have hle₂ := Nat.le_trans hr₂.size_le hb
  have hle₄ := Nat.le_trans hr₄.size_le hb
  have hw₁ := hw.reaches (Retrieval.reaches_of_run _ hmember) hle₁
  have hw₂ := hw₁.reaches (Retrieval.reaches_of_run _ hother) hle₂
  have hw₃ := hw₂.reaches (Retrieval.reaches_of_run _ hnon) (Nat.le_trans hr₃.size_le hb)
  obtain ⟨hm, hp₁⟩ := atom_run_ok hw hmember hle₁
  obtain ⟨ho, hp₂⟩ := atom_run_ok hw₁ hother hle₂
  obtain ⟨rfl, hp₃⟩ := negate_run_ok hnon
  obtain ⟨hout, hp₄⟩ := outputAtom_run_ok hw₃ houtput hle₄
  obtain ⟨rfl, hp₅⟩ := negate_run_ok hnot
  refine ⟨_, ⟨member, other, output, hm.extend hr₁.toExtends, ho.extend hr₂.toExtends,
    hout.extend hr₄.toExtends, rfl⟩, ?_⟩
  rw [Retrieval.pending_of_learn _ hlearn, hp₅, hp₄, hp₃, hp₂, hp₁]

theorem pending_of_learnOutputs (hw : WellFormed w.table) {tuples : List Tuple}
    (h : (tuples.forM (learnOutput p s)).run call w = (.ok (), w'))
    (hb : w'.table.size ≤ 2 ^ 31) :
    ∃ submitted, w'.pending.toList = w.pending.toList ++ submitted ∧
      List.Forall₂ (Excludes call w'.table p s) tuples submitted := by
  induction tuples generalizing w with
  | nil =>
    obtain ⟨-, rfl⟩ := (Retrieval.run_pure_ok _).mp h
    exact ⟨[], by simp, .nil⟩
  | cons t rest ih =>
    rw [Retrieval.forM_cons, Retrieval.run_bind_ok] at h
    obtain ⟨⟨⟩, w₁, hfirst, hrest⟩ := h
    have hr := Retrieval.reaches_of_run _ hrest
    have hle := Nat.le_trans hr.size_le hb
    have hw₁ := hw.reaches (Retrieval.reaches_of_run _ hfirst) hle
    obtain ⟨n, hn, hpending⟩ := learnOutput_ok hw hfirst hle
    obtain ⟨submitted, hsubmitted, hall⟩ := ih hw₁ hrest
    refine ⟨n :: submitted, ?_, .cons (hn.extend hr.toExtends) hall⟩
    rw [hsubmitted, hpending, Array.toList_push, List.append_assoc]
    rfl

theorem learnOutputs_ok (hw : WellFormed w.table) {tuples : List Tuple}
    (h : (tuples.forM (learnOutput p s)).run call w = (.ok (), w'))
    (hb : w'.table.size ≤ 2 ^ 31) (hn : n ∈ w'.pending.toList) :
    n ∈ w.pending.toList ∨ ∃ t ∈ tuples, Excludes call w'.table p s t n := by
  obtain ⟨submitted, hsubmitted, hall⟩ := pending_of_learnOutputs hw h hb
  rw [hsubmitted, List.mem_append] at hn
  exact hn.imp_right (exists_of_mem_forall₂ hall)

theorem excludes_of_learnOutputs (hw : WellFormed w.table) {tuples : List Tuple}
    (h : (tuples.forM (learnOutput p s)).run call w = (.ok (), w'))
    (hb : w'.table.size ≤ 2 ^ 31) (ht : t ∈ tuples) :
    ∃ n ∈ w'.pending.toList, Excludes call w'.table p s t n := by
  obtain ⟨submitted, hsubmitted, hall⟩ := pending_of_learnOutputs hw h hb
  obtain ⟨n, hn⟩ := exists_mem_zip_of_forall₂ hall ht
  refine ⟨n, ?_, (List.forall₂_iff_zip.mp hall).2 hn⟩
  rw [hsubmitted]
  exact List.mem_append_right _ (List.of_mem_zip hn).2

/-- The atom answers the difference, for every tuple of which it has made a submission. -/
theorem setMinusLearn_ok {q : Query} {answer : Answer}
    (h : (setMinusLearn q).run call w = (.ok answer, w')) :
    ∃ p s, q.arg? 0 = some p ∧ q.arg? 1 = some s ∧
      answer = .ofTuples (difference (q.extension p) (q.extension s)) ∧
      ((difference (q.extension p) (q.extension s)).forM (learnOutput p s)).run call w =
        (.ok (), w') := by
  simp only [setMinusLearn, Retrieval.run_bind_ok, Retrieval.run_pure_ok, inputArgument_ok] at h
  obtain ⟨p, _, ⟨hp, rfl⟩, s, _, ⟨hs, rfl⟩, ⟨⟩, _, hlearn, rfl, rfl⟩ := h
  exact ⟨p, s, hp, hs, rfl, hlearn⟩

theorem setMinusLearn_reports {a : ExternalAtom} (hr : a.retrieve = setMinusLearn)
    (h0 : a.signature.kindAt 0 = some .predicate) (h1 : a.signature.kindAt 1 = some .predicate) :
    a.Reports final differenceOf := by
  intro q table answer hanswer t
  obtain ⟨w, hrun, -⟩ := hanswer.exists_run
  rw [hr] at hrun
  obtain ⟨p, s, hp, hs, rfl, -⟩ := setMinusLearn_ok hrun
  rw [Answer.mem_ofTuples, mem_difference, mem_differenceOf h0 h1 hp hs]

/-- An atom with input arguments has more arguments in its output atoms than these have outputs, so
no output atom is an atom over an output tuple alone. -/
theorem ne_of_isOutputAtom {t' : Tuple} {other output output' : Symbol} (hinput : call.input ≠ [])
    (hother : table.AtomOf s t other) (h : call.IsOutputAtom table t output)
    (h' : call.IsOutputAtom table t' output') : other ≠ output' := by
  rintro rfl
  have hargs := congrArg List.length (hother.2.2.symm.trans h'.arguments)
  have hpos := List.length_pos_iff.mpr hinput
  rw [List.length_append, h.1, h'.1] at hargs
  omega

theorem remains_of_isTrue (hw : WellFormed table) {j : Interpretation} (hj : j.Faithful table)
    {member other : Symbol} (hm : table.AtomOf p t member) (ho : table.AtomOf s t other)
    (htrue : j.isTrue member = true) (hfalse : j.isTrue other.flip = true) :
    t ∈ j.extension p ∧ t ∉ j.extension s := by
  rw [hj.mem_extension, hj.mem_extension]
  refine ⟨⟨member, (Interpretation.isTrue_iff hm.1).mp htrue, hm.2⟩, ?_⟩
  rintro ⟨b, hb, hheaded, hargs⟩
  obtain rfl := AtomOf.unique hw ⟨(hj.headed b _ hb).1, hheaded, hargs⟩ ho
  rw [Interpretation.isTrue_flip_iff ho.1, hb] at hfalse
  simp at hfalse

theorem Excludes.sound (h : Excludes call final p s t n) (hw : WellFormed final)
    {j : Interpretation} (hj : j.Faithful final) (hinput : call.input ≠ []) {t' : Tuple}
    {output' : Symbol} (hout' : call.IsOutputAtom final t' output')
    (hn : output'.flip ∈ n.literals)
    (hholds : ∀ l ∈ n.literals, l ≠ output'.flip → j.isTrue l = true) :
    t' ∈ j.extension p ∧ t' ∉ j.extension s := by
  obtain ⟨member, other, output, hm, ho, hout, rfl⟩ := h
  have hne := ne_of_isOutputAtom hinput ho hout hout'
  have hneg : output'.flip.isNegated = true := by rw [Symbol.isNegated_flip, hout'.2.1]; rfl
  simp only [Nogood.mem_ofList, List.mem_cons, List.not_mem_nil, or_false] at hn hholds
  -- The member is positive and the other atom is short, so only the output atom is left.
  have hsame : output' = output := by
    rcases hn with hn | hn | hn
    · rw [hn, hm.1] at hneg
      simp at hneg
    · rw [← Symbol.flip_flip other, ← hn, Symbol.flip_flip] at hne
      exact absurd rfl hne
    · rw [← Symbol.flip_flip output', hn, Symbol.flip_flip]
  subst hsame
  obtain rfl : t' = t := List.append_cancel_left (hout'.arguments.symm.trans hout.arguments)
  refine remains_of_isTrue hw hj hm ho (hholds member (Or.inl rfl) ?_)
    (hholds other.flip (Or.inr (Or.inl rfl)) ?_)
  · rintro rfl
    simp [hm.1] at hneg
  · intro he
    rw [← Symbol.flip_flip other, he, Symbol.flip_flip] at hne
    exact hne rfl

end Bundled

end ExternalAtoms
