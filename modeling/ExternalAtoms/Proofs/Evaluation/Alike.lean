import ExternalAtoms.Proofs.Evaluation.Outputs
import ExternalAtoms.Proofs.Evaluation.Success
import ExternalAtoms.Proofs.Retrieval.Alike

/-! # The same call in two sessions

The checks before and after the retrieval, the derived nogoods and the output atoms depend on what
symbols denote and not on their handles. So an atom whose retrievals agree is evaluated alike in two
sessions with the same settings, whatever was stored, learned or counted in them before.
-/
namespace ExternalAtoms
open SymbolTable

variable {table table' : SymbolTable}

namespace Signature
variable {s : Signature} {settings : Settings} {given given' answer answer' : Answer}
  {dropped dropped' : Nat}

theorem checkInput_of_alike (hw : table.WellFormed) (hw' : table'.WellFormed)
    {input input' : List Symbol} (hinput : table.AlikeTuple table' input input')
    (h : s.checkInput table input = .ok ()) : s.checkInput table' input' = .ok () := by
  obtain ⟨hlength, haccepts⟩ := checkInput_ok_iff.mp h
  refine checkInput_ok_iff.mpr ⟨hinput.length_eq ▸ hlength, fun index arg' harg' => ?_⟩
  rcases getElem?_of_forall₂ hinput index with ⟨-, hnone⟩ | ⟨arg, arg₁, harg, harg₁, hsame⟩
  · rw [hnone] at harg'
    cases harg'
  · obtain rfl := Option.some.inj (harg'.symm.trans harg₁)
    obtain ⟨⟨hpositive, -⟩, hpredicate⟩ := acceptsArgument_iff.mp (haccepts index arg harg)
    exact acceptsArgument_iff.mpr ⟨⟨hsame.1.symm.trans hpositive, hsame.symm.known⟩,
      fun hkind => hsame.isPredicateConstant hw hw' (hpredicate hkind)⟩

theorem checkAnswer_of_alike (h : Answer.Alike table table' given given')
    (hchecked : s.checkAnswer settings given = .ok (answer, dropped)) :
    ∃ checked, s.checkAnswer settings given' = .ok checked := by
  obtain ⟨hlengths, hunknown⟩ := checkAnswer_succeeds_iff.mp ⟨_, hchecked⟩
  refine checkAnswer_succeeds_iff.mpr ⟨fun t' ht' => ?_, hunknown.imp_left fun hnone => ?_⟩
  · rcases ht' with ht' | ht'
    · obtain ⟨t, ht, hsame⟩ := h.trueTuples.back t' ht'
      exact hsame.length_eq ▸ hlengths t (Or.inl ht)
    · obtain ⟨t, ht, hsame⟩ := h.unknownTuples.back t' ht'
      exact hsame.length_eq ▸ hlengths t (Or.inr ht)
  · refine Std.ExtTreeSet.eq_empty_iff_forall_not_mem.mpr fun t' ht' => ?_
    obtain ⟨t, ht, -⟩ := h.unknownTuples.back t' ht'
    rw [hnone] at ht
    exact Std.ExtTreeSet.not_mem_empty ht

theorem alike_of_checkAnswer (h : Answer.Alike table table' given given')
    (hchecked : s.checkAnswer settings given = .ok (answer, dropped))
    (hchecked' : s.checkAnswer settings given' = .ok (answer', dropped')) :
    Answer.Alike table table' answer answer' := by
  cases hp : s.properties.partialAnswers with
  | true =>
    rw [eq_of_checkAnswer hchecked hp, eq_of_checkAnswer hchecked' hp]
    exact h
  | false =>
    constructor
    · rw [trueTuples_of_checkAnswer hchecked, trueTuples_of_checkAnswer hchecked']
      exact h.trueTuples
    · rw [unknownTuples_of_checkAnswer hchecked hp, unknownTuples_of_checkAnswer hchecked' hp]
      exact .of_none (fun _ => Std.ExtTreeSet.not_mem_empty) fun _ => Std.ExtTreeSet.not_mem_empty

end Signature

namespace Properties
variable {p : Properties} {index : Nat} {b b' : Symbol} {v : Truth}

theorem contribution_undecided (h : p.contribution index b v = .undecided) (b' : Symbol) :
    p.contribution index b' v = .undecided := by
  cases v <;> simp only [contribution] at h ⊢ <;> split at h <;> simp_all

theorem exists_contribution (hb : table.Alike table' b b') {l : Symbol}
    (h : p.contribution index b v = .literal l) :
    ∃ l', p.contribution index b' v = .literal l' ∧ table.Alike table' l l' := by
  cases v with
  | «true» =>
    simp only [contribution] at h ⊢
    split at h
    · simp at h
    · next hd =>
      obtain rfl := Contribution.literal.inj h
      exact ⟨b', if_neg hd, hb⟩
  | «false» =>
    simp only [contribution] at h ⊢
    split at h
    · simp at h
    · next hm =>
      obtain rfl := Contribution.literal.inj h
      exact ⟨b'.flip, if_neg hm, hb.flip⟩
  | unknown =>
    simp only [contribution] at h
    split at h <;> simp at h

end Properties

namespace Invocation
variable {signature : Signature} {t t' : Tuple} {o o' b l : Symbol} {q q' : Query}

theorem IsOutputAtom.usable {call : Invocation} (ha : Admits table)
    (h : call.IsOutputAtom table t o) : ∀ s ∈ t, table.Usable s := by
  intro s hs
  refine ha.usable_arguments (p := o) ?_
  rw [h.arguments]
  exact List.mem_append_right _ hs

section Alike
variable (hw : WellFormed table) (hw' : WellFormed table')
include hw hw'

theorem IsOutputAtom.alike {input input' : List Symbol}
    (hinput : table.AlikeTuple table' input input') (ht : table.AlikeTuple table' t t')
    (h : IsOutputAtom ⟨signature, input⟩ table t o)
    (h' : IsOutputAtom ⟨signature, input'⟩ table' t' o') : table.Alike table' o o' := by
  have hargs : table.AlikeTuple table' (input ++ t) (input' ++ t') := List.rel_append hinput ht
  have hstored := h'.2
  rw [← hargs.length_eq] at hstored
  exact .of_stored hw hw' h.2 hstored (Content.related_application _ hargs)

variable (hq : Query.Alike table table' q q')
include hq

theorem InputAtom.exists_alike {index : Nat} {v : Truth}
    (h : InputAtom ⟨signature, q.input⟩ table q.interpretation index b v) :
    ∃ b', InputAtom ⟨signature, q'.input⟩ table' q'.interpretation index b' v ∧
      table.Alike table' b b' := by
  obtain ⟨p, hp, hk, hheaded, hv⟩ := h
  obtain ⟨p', hp', hsame⟩ := hq.exists_arg? hp
  obtain ⟨b', hv', hb⟩ := (hq.interpretation v).forth b hv
  exact ⟨b', ⟨p', hp', hk, hb.headedBy hw hw' hsame hheaded, hv'⟩, hb⟩

theorem InputLiteral.exists_alike
    (h : InputLiteral ⟨signature, q.input⟩ table q.interpretation l) :
    ∃ l', InputLiteral ⟨signature, q'.input⟩ table' q'.interpretation l' ∧
      table.Alike table' l l' := by
  obtain ⟨index, b, v, hatom, hl⟩ := h
  obtain ⟨b', hatom', hb⟩ := hatom.exists_alike hw hw' hq
  obtain ⟨l', hl', hsame⟩ := Properties.exists_contribution hb hl
  exact ⟨l', ⟨index, b', v, hatom', hl'⟩, hsame⟩

theorem Derives.alike {n n' : Nogood} (ht : table.AlikeTuple table' t t')
    (h : Derives ⟨signature, q.input⟩ table q.interpretation t n)
    (h' : Derives ⟨signature, q'.input⟩ table' q'.interpretation t' n') :
    Nogood.Alike table table' n n' := by
  obtain ⟨output, houtput, hliterals⟩ := h.literals
  obtain ⟨output', houtput', hliterals'⟩ := h'.literals
  have hsame := IsOutputAtom.alike hw hw' hq.input ht houtput houtput'
  constructor
  · intro l hl
    rcases (hliterals l).mp hl with hinput | rfl
    · obtain ⟨l', hl', halike⟩ := hinput.exists_alike hw hw' hq
      exact ⟨l', (hliterals' l').mpr (Or.inl hl'), halike⟩
    · exact ⟨_, (hliterals' _).mpr (Or.inr rfl), hsame.flip⟩
  · intro l' hl'
    rcases (hliterals' l').mp hl' with hinput | rfl
    · obtain ⟨l, hl, halike⟩ := hinput.exists_alike hw' hw hq.symm
      exact ⟨l, (hliterals l).mpr (Or.inl hl), halike.symm⟩
    · exact ⟨_, (hliterals _).mpr (Or.inr rfl), hsame.flip⟩

end Alike

end Invocation

/-- Asked the same in two sessions, the atom fails in both or gives alike answers. -/
def ExternalAtom.Uniform (a : ExternalAtom) : Prop :=
  ∀ {table table' : SymbolTable} {q q' : Query}, Query.Alike table table' q q' →
    (Workspace.ofTable table).Alike (.ofTable table') →
    a.signature.checkInput table q.input = .ok () →
    a.signature.checkInput table' q'.input = .ok () →
    Retrieval.Agree ⟨a.signature, q.input⟩ ⟨a.signature, q'.input⟩ (.ofTable table)
      (.ofTable table') Answer.Alike (a.retrieve q) (a.retrieve q')

/-- The evaluations present alike answers and output atoms, and both or none are provisional. -/
structure Evaluation.Alike (table table' : SymbolTable) (e e' : Evaluation) : Prop where
  answer : Answer.Alike table table' e.answer e'.answer
  outputs : ∀ v, Paired (table.Alike table') (fun o => (o, v) ∈ e.outputs)
    fun o' => (o', v) ∈ e'.outputs
  provisional : e.provisional = e'.provisional

namespace Evaluation
variable {signature : Signature} {input input' : List Symbol} {e e' : Evaluation}

theorem exists_reported {t : Tuple} (hanswer : Answer.Alike table table' e.answer e'.answer)
    (hprovisional : e.provisional = e'.provisional) (ht : t ∈ e.answer.reported) :
    ∃ t' ∈ e'.answer.reported, table.AlikeTuple table' t t' ∧ e.truthOf t = e'.truthOf t' := by
  rcases Answer.mem_reported.mp ht with ht | ht
  · obtain ⟨t', ht', hsame⟩ := hanswer.trueTuples.forth t ht
    refine ⟨t', Answer.mem_reported.mpr (Or.inl ht'), hsame, ?_⟩
    rw [truthOf_of_true ht, truthOf_of_true ht', hprovisional]
  · obtain ⟨t', ht', hsame⟩ := hanswer.unknownTuples.forth t ht
    refine ⟨t', Answer.mem_reported.mpr (Or.inr ht'), hsame, ?_⟩
    rw [truthOf_of_unknown ht, truthOf_of_unknown ht']

theorem Labelled.exists_output (hw : WellFormed table) (hw' : WellFormed table')
    (h : e.Labelled ⟨signature, input⟩ table) (h' : e'.Labelled ⟨signature, input'⟩ table')
    (hinput : table.AlikeTuple table' input input')
    (hanswer : Answer.Alike table table' e.answer e'.answer)
    (hprovisional : e.provisional = e'.provisional) {o : Symbol} {v : Truth}
    (ho : (o, v) ∈ e.outputs) : ∃ o', (o', v) ∈ e'.outputs ∧ table.Alike table' o o' := by
  obtain ⟨t, ht, hv, houtput⟩ := exists_of_mem_forall₂ h ho
  obtain ⟨t', ht', hsame, hvalue⟩ := exists_reported hanswer hprovisional ht
  obtain ⟨⟨o', v'⟩, hmem⟩ := exists_mem_zip_of_forall₂ h' ht'
  obtain ⟨hv', houtput'⟩ := h'.entry hmem
  obtain rfl : v = v' := hv.symm.trans (hvalue.trans hv')
  exact ⟨o', (List.of_mem_zip hmem).2, houtput.alike hw hw' hinput hsame houtput'⟩

end Evaluation

namespace Evaluator

/-- Calls of the same atom with the same settings and alike queries. -/
structure Call.Alike (a : ExternalAtom) (c c' : Call) : Prop where
  find : c.evaluator.registry.find? c.predicate = some a
  find' : c'.evaluator.registry.find? c'.predicate = some a
  settings : c.evaluator.settings = c'.evaluator.settings
  query : Query.Alike c.table c'.table c.query c'.query
  bounded : c.outcome.table.size ≤ 2 ^ 31
  bounded' : c'.outcome.table.size ≤ 2 ^ 31

namespace Call.Alike
variable {a : ExternalAtom} {c c' : Call} {e e' : Evaluation} {draft draft' : Draft}

theorem symm (h : Call.Alike a c c') : Call.Alike a c' c where
  find := h.find'
  find' := h.find
  settings := h.settings.symm
  query := h.query.symm
  bounded := h.bounded'
  bounded' := h.bounded

theorem attempt_eq (h : Call.Alike a c c') :
    c.attempt = a.attempt c.evaluator.settings c.query c.table := by
  simp only [Call.attempt, Evaluator.attempt, h.find]

theorem wellFormed (h : Call.Alike a c c') : WellFormed c.table ∧ WellFormed c.outcome.table := by
  have hw := (h.query.built.reached.trans c.outcome_reaches).wellFormed h.bounded
  exact ⟨h.query.built.reached.wellFormed (Nat.le_trans c.outcome_reaches.size_le h.bounded), hw⟩

theorem asked_reaches (h : Call.Alike a c c')
    (hinput : a.signature.checkInput c.table c.query.input = .ok ()) :
    Reaches (c.askedTable a) c.outcome.table := by
  rw [c.outcome_table, h.attempt_eq]
  exact a.attempt_reaches_of_input _ hinput

variable (ha : a.Uniform) (h : Call.Alike a c c')
include ha h

theorem asked (hinput : a.signature.checkInput c.table c.query.input = .ok ()) :
    a.signature.checkInput c'.table c'.query.input = .ok () ∧
      Retrieval.Together Answer.Alike (a.ask c.query c.table) (a.ask c'.query c'.table) := by
  have hw := h.wellFormed.1
  have hw' := h.symm.wellFormed.1
  have hinput' := Signature.checkInput_of_alike hw hw' h.query.input hinput
  have hstart : (Workspace.ofTable c.table).Alike (.ofTable c'.table) :=
    ⟨hw, hw', .of_none (by simp [Workspace.ofTable]) (by simp [Workspace.ofTable])⟩
  exact ⟨hinput', ha h.query hstart hinput hinput'
    (Nat.le_trans (h.asked_reaches hinput).size_le h.bounded)
    (Nat.le_trans (h.symm.asked_reaches hinput').size_le h.bounded')⟩

theorem succeeds (he : c.outcome.result = .ok e) : ∃ e', c'.outcome.result = .ok e' := by
  obtain ⟨draft, hd, hanswer, -⟩ := Call.outcome_ok he
  rw [h.attempt_eq] at hd
  obtain ⟨given, dropped, hinput, hgiven, hchecked, -⟩ := ExternalAtom.attempt_ok hd
  obtain ⟨hinput', htogether⟩ := h.asked ha hinput
  obtain ⟨given', hgiven', hsame, hasked⟩ := htogether.returned_of_ok hgiven
  rw [h.settings] at hchecked
  obtain ⟨⟨answer', dropped'⟩, hchecked'⟩ := Signature.checkAnswer_of_alike hsame hchecked
  have hkept := Signature.alike_of_checkAnswer hsame hchecked hchecked'
  rw [← hanswer] at hkept
  have hlabelled := Call.labelled h.query.built.reached h.bounded h.find he
  have hpositive : ∀ t ∈ e.answer.reported, ∀ s ∈ t, s.isNegated = false := by
    intro t ht s hs
    obtain ⟨entry, hmem⟩ := exists_mem_zip_of_forall₂ hlabelled ht
    exact ((hlabelled.entry hmem).2.usable h.wellFormed.2.admits s hs).1
  -- the other call can store its tuples, because they are known there and alike stored ones
  have husable : ∀ t', t' ∈ answer'.trueTuples ∨ t' ∈ answer'.unknownTuples →
      ∀ s' ∈ t', (a.ask c'.query c'.table).2.table.Usable s' := by
    intro t' ht' s' hs'
    obtain ⟨t, ht, halike⟩ : ∃ t ∈ e.answer.reported,
        (a.ask c.query c.table).2.table.AlikeTuple (a.ask c'.query c'.table).2.table t t' := by
      simp only [Answer.mem_reported]
      rcases ht' with ht' | ht'
      · obtain ⟨t, ht, halike⟩ := hkept.trueTuples.back t' ht'
        exact ⟨t, Or.inl ht, halike⟩
      · obtain ⟨t, ht, halike⟩ := hkept.unknownTuples.back t' ht'
        exact ⟨t, Or.inr ht, halike⟩
    obtain ⟨s, hs, hss'⟩ := exists_of_mem_forall₂ halike hs'
    exact ⟨hss'.1.symm.trans (hpositive t ht s hs), hss'.symm.known⟩
  exact (evaluate_succeeds_iff h.find').mpr
    (ExternalAtom.attempt_succeeds hinput' hgiven' hchecked' husable)

theorem drafts (hd : c.attempt.result = .ok draft) (hd' : c'.attempt.result = .ok draft') :
    Answer.Alike c.outcome.table c'.outcome.table draft.answer draft'.answer ∧
      Paired (Nogood.Alike c.outcome.table c'.outcome.table) (· ∈ draft.submitted)
        (· ∈ draft'.submitted) := by
  rw [h.attempt_eq] at hd
  rw [h.symm.attempt_eq] at hd'
  obtain ⟨given, dropped, hinput, hgiven, hchecked, -⟩ := ExternalAtom.attempt_ok hd
  obtain ⟨given', dropped', hinput', hgiven', hchecked', -⟩ := ExternalAtom.attempt_ok hd'
  obtain ⟨given₁, hgiven₁, hsame, hasked⟩ := (h.asked ha hinput).2.returned_of_ok hgiven
  obtain rfl := Except.ok.inj (hgiven'.symm.trans hgiven₁)
  rw [h.settings] at hchecked
  have hl := (h.asked_reaches hinput).toExtends
  have hl' := (h.symm.asked_reaches hinput').toExtends
  have hkept := Signature.alike_of_checkAnswer hsame hchecked hchecked'
  rw [ExternalAtom.submitted_of_attempt hd, ExternalAtom.submitted_of_attempt hd']
  exact ⟨hkept.extend hasked.wellFormed.admits hl hasked.wellFormed'.admits hl',
    hasked.pending.imp fun _ _ hn =>
      hn.extend hasked.wellFormed.admits hl hasked.wellFormed'.admits hl'⟩

theorem evaluation (he : c.outcome.result = .ok e) (he' : c'.outcome.result = .ok e') :
    Evaluation.Alike c.outcome.table c'.outcome.table e e' := by
  obtain ⟨draft, hd, hanswer, -, hprovisional⟩ := Call.outcome_ok he
  obtain ⟨draft', hd', hanswer', -, hprovisional'⟩ := Call.outcome_ok he'
  have halike := (h.drafts ha hd hd').1
  rw [← hanswer, ← hanswer'] at halike
  have hsame : e.provisional = e'.provisional := by
    rw [h.attempt_eq] at hd
    rw [h.symm.attempt_eq] at hd'
    rw [hprovisional, hprovisional', ExternalAtom.provisional_of_attempt hd,
      ExternalAtom.provisional_of_attempt hd',
      h.query.interpretation.isPartial_eq h.query.built.snapshot h.query.built'.snapshot]
  have hlabelled := Call.labelled h.query.built.reached h.bounded h.find he
  have hlabelled' := Call.labelled h.query.built'.reached h.bounded' h.find' he'
  have hinput := (h.query.extend c.outcome_reaches c'.outcome_reaches).input
  have hw := h.wellFormed.2
  have hw' := h.symm.wellFormed.2
  refine ⟨halike, fun v => ⟨fun o ho => ?_, fun o' ho' => ?_⟩, hsame⟩
  · exact hlabelled.exists_output hw hw' hlabelled' hinput halike hsame ho
  · obtain ⟨o, ho, hoo'⟩ :=
      hlabelled'.exists_output hw' hw hlabelled hinput.symm halike.symm hsame.symm ho'
    exact ⟨o, ho, hoo'.symm⟩

theorem derived (hd : c.attempt.result = .ok draft) (hd' : c'.attempt.result = .ok draft')
    {n : Nogood} (hn : n ∈ draft.derived) :
    ∃ n' ∈ draft'.derived, Nogood.Alike c.outcome.table c'.outcome.table n n' := by
  have hq := h.query.extend c.outcome_reaches c'.outcome_reaches
  have hanswer := (h.drafts ha hd hd').1
  rw [h.attempt_eq] at hd
  rw [h.symm.attempt_eq] at hd'
  have hfinal : Reaches (a.attempt c.evaluator.settings c.query c.table).table c.outcome.table := by
    rw [c.outcome_table, h.attempt_eq]
    exact .refl
  have hfinal' : Reaches (a.attempt c'.evaluator.settings c'.query c'.table).table
      c'.outcome.table := by
    rw [c'.outcome_table, h.symm.attempt_eq]
    exact .refl
  have hw := h.wellFormed.2
  have hw' := h.symm.wellFormed.2
  rcases ExternalAtom.attempt_derives h.query.built hd hfinal h.bounded with
    ⟨hnone, -⟩ | ⟨hlearns, hall⟩
  · simp [hnone] at hn
  obtain ⟨t, ht, hderives⟩ := exists_of_mem_forall₂ hall hn
  rcases ExternalAtom.attempt_derives h.query.built' hd' hfinal' h.bounded' with
    ⟨-, hoff | ⟨index, b', v, hatom', hundecided⟩⟩ | ⟨-, hall'⟩
  · -- the other call cannot have left out what this one derived: neither for its settings
    rw [Invocation.learns, ← h.settings] at hoff
    rw [Invocation.learns, hoff] at hlearns
    cases hlearns
  · -- nor for an undecided atom, whose counterpart would have stopped this one
    obtain ⟨b, hatom, -⟩ := hatom'.exists_alike hw' hw hq.symm
    exact absurd (Properties.contribution_undecided hundecided b) (hderives.decided index b v hatom)
  · obtain ⟨t', ht', hsame⟩ := hanswer.trueTuples.forth t (Std.ExtTreeSet.mem_toList.mp ht)
    obtain ⟨n', hmem⟩ := exists_mem_zip_of_forall₂ hall' (Std.ExtTreeSet.mem_toList.mpr ht')
    exact ⟨n', (List.of_mem_zip hmem).2,
      hderives.alike hw hw' hq hsame (List.forall₂_zip hall' hmem)⟩

/-- What one call learned is in the log of the other evaluator afterwards. -/
theorem learned (he : c.outcome.result = .ok e) (he' : c'.outcome.result = .ok e') {n : Nogood}
    (hn : n ∈ e.learned) : ∃ n' ∈ c'.outcome.evaluator.log.toList,
      Nogood.Alike c.outcome.table c'.outcome.table n n' := by
  obtain ⟨draft, hd, -⟩ := Call.outcome_ok he
  obtain ⟨draft', hd', -⟩ := Call.outcome_ok he'
  obtain ⟨hlog, hnew⟩ := (mem_learned_iff he).mp hn
  obtain ⟨hproper, hdraft⟩ := ((mem_log_iff hd).mp hlog).resolve_left hnew
  have hcounterpart : ∃ n', (n' ∈ draft'.submitted ∨ n' ∈ draft'.derived) ∧
      Nogood.Alike c.outcome.table c'.outcome.table n n' := by
    rcases hdraft with hsubmitted | hderived
    · obtain ⟨n', hn', halike⟩ := (h.drafts ha hd hd').2.forth n hsubmitted
      exact ⟨n', Or.inl hn', halike⟩
    · obtain ⟨n', hn', halike⟩ := h.derived ha hd hd' hderived
      exact ⟨n', Or.inr hn', halike⟩
  obtain ⟨n', hn', halike⟩ := hcounterpart
  have hproper' := halike.proper h.wellFormed.2 hproper
  exact ⟨n', (mem_log_iff hd').mpr (Or.inr ⟨hproper', hn'⟩), halike⟩

end Call.Alike

end Evaluator

end ExternalAtoms
