import ExternalAtoms.Proofs.Evaluation.Session
import ExternalAtoms.Proofs.Evaluation.Value
import ExternalAtoms.Proofs.Traversal

/-! # Output atoms identify answers

The output atoms of an evaluation stand next to its reported tuples, with the truth values of these.
They are the handles that the atom itself gets for its tuples and that derived nogoods negate. In a
session two of them are equal only if predicate, input and tuple are: the handle determines the name
and the arguments, the name determines the predicate, and what is registered under the predicate
says where in the arguments the input ends.
-/
namespace ExternalAtoms
open SymbolTable Sample

namespace Answer

/-- The true tuples before the unknown ones. -/
def reported (a : Answer) : List Tuple := a.trueTuples.toList ++ a.unknownTuples.toList

theorem mem_reported {a : Answer} {t : Tuple} :
    t ∈ a.reported ↔ t ∈ a.trueTuples ∨ t ∈ a.unknownTuples := by
  rw [reported, List.mem_append, Std.ExtTreeSet.mem_toList, Std.ExtTreeSet.mem_toList]

theorem length_reported (a : Answer) :
    a.reported.length = a.trueTuples.size + a.unknownTuples.size := by
  rw [reported, List.length_append, Std.ExtTreeSet.length_toList, Std.ExtTreeSet.length_toList]

theorem nodup_reported (a : Answer) : a.reported.Nodup := by
  refine List.nodup_append.mpr ⟨a.trueTuples.nodup_toList, a.unknownTuples.nodup_toList, ?_⟩
  rintro t ht _ hu rfl
  exact a.disjoint t (Std.ExtTreeSet.mem_toList.mp ht) (Std.ExtTreeSet.mem_toList.mp hu)

end Answer

namespace Evaluation
variable {e : Evaluation} {t : Tuple}

/-- The entry of a reported tuple among the output atoms; both stand in the same order. -/
def Entry (e : Evaluation) (t : Tuple) (o : Symbol) (v : Truth) : Prop :=
  (t, o, v) ∈ e.answer.reported.zip e.outputs

theorem truthOf_of_not_reported (h : t ∉ e.answer.reported) :
    e.truthOf t = if e.provisional then .unknown else .false := by
  rw [Answer.mem_reported, not_or] at h
  simp [truthOf, Answer.isUnknown, Answer.isTrue, h, Truth.ofBool]

/-- The output atoms stand for the reported tuples, place by place, and carry their values. -/
def Labelled (e : Evaluation) (call : Invocation) (table : SymbolTable) : Prop :=
  List.Forall₂ (fun t entry => e.truthOf t = entry.2 ∧ call.IsOutputAtom table t entry.1)
    e.answer.reported e.outputs

namespace Labelled
variable {call : Invocation} {table : SymbolTable} {o : Symbol} {v : Truth}
  (h : e.Labelled call table)
include h

theorem entry (hmem : e.Entry t o v) : e.truthOf t = v ∧ call.IsOutputAtom table t o :=
  List.forall₂_zip h hmem

theorem length_outputs :
    e.outputs.length = e.answer.trueTuples.size + e.answer.unknownTuples.size := by
  rw [← e.answer.length_reported, h.length_eq]

theorem existsUnique_entry (hw : WellFormed table) (ht : t ∈ e.answer.reported) :
    ∃! entry : Symbol × Truth, e.Entry t entry.1 entry.2 := by
  obtain ⟨entry, hmem⟩ := exists_mem_zip_of_forall₂ h ht
  obtain ⟨hv, ho⟩ := h.entry hmem
  refine ⟨entry, hmem, fun other hother => ?_⟩
  obtain ⟨hv', ho'⟩ := h.entry hother
  exact Prod.ext (ho'.unique hw ho) (hv'.symm.trans hv)

theorem nodup_outputs : (e.outputs.map Prod.fst).Nodup := by
  have hatoms := List.forall₂_map_right_iff.mpr (h.imp fun _ _ => And.right)
  refine nodup_of_forall₂ (fun t t' o ho ho' => ?_) hatoms e.answer.nodup_reported
  exact List.append_cancel_left (ho.injective ho').2

theorem truthOf_of_no_entry (hnone : ∀ o v, ¬e.Entry t o v) :
    e.truthOf t = if e.provisional then .unknown else .false := by
  refine truthOf_of_not_reported fun ht => ?_
  obtain ⟨entry, hmem⟩ := exists_mem_zip_of_forall₂ h ht
  exact hnone _ _ hmem

end Labelled

end Evaluation

namespace Invocation
variable {call : Invocation} {table : SymbolTable} {answer : Answer}

theorem storeAnswer_ok (hw : WellFormed table) {reported : Truth}
    {outputs : List (Symbol × Truth)}
    (ho : (call.storeAnswer answer reported table).1 = .ok outputs)
    (hb : (call.storeAnswer answer reported table).2.size ≤ 2 ^ 31) {value : Tuple → Truth}
    (htrue : ∀ t ∈ answer.trueTuples, value t = reported)
    (hunknown : ∀ t ∈ answer.unknownTuples, value t = .unknown) :
    List.Forall₂ (fun t entry => value t = entry.2 ∧
        call.IsOutputAtom (call.storeAnswer answer reported table).2 t entry.1)
      answer.reported outputs := by
  have hsettles := call.storeOutputAtoms_reaches table answer.trueTuples.toList
  unfold storeAnswer at ho hb ⊢
  dsimp only at ho hb ⊢
  cases hs : (call.storeOutputAtoms table answer.trueTuples.toList).1 with
  | error e => simp [hs] at ho
  | ok settled =>
    simp only [hs] at ho hb ⊢
    have hunsettles := call.storeOutputAtoms_reaches
      (call.storeOutputAtoms table answer.trueTuples.toList).2 answer.unknownTuples.toList
    cases hu : (call.storeOutputAtoms (call.storeOutputAtoms table answer.trueTuples.toList).2
        answer.unknownTuples.toList).1 with
    | error e => simp [hu, Except.map] at ho
    | ok unsettled =>
      simp only [hu, Except.map, Except.ok.injEq] at ho
      subst ho
      have hle := Nat.le_trans hunsettles.size_le hb
      -- storing the atoms of the unknown tuples does not disturb those of the true ones
      have hsettled := storeOutputAtoms_ok hw hs hle
      have hunsettled := storeOutputAtoms_ok (hw.reaches hsettles hle) hu hb
      refine List.rel_append (List.forall₂_map_right_iff.mpr ?_)
        (List.forall₂_map_right_iff.mpr ?_)
      · exact (List.forall₂_and_left _ _).mpr
          ⟨fun t ht => htrue t (Std.ExtTreeSet.mem_toList.mp ht),
            hsettled.imp fun _ _ h => h.extend hunsettles.toExtends⟩
      · exact (List.forall₂_and_left _ _).mpr
          ⟨fun t ht => hunknown t (Std.ExtTreeSet.mem_toList.mp ht), hunsettled⟩

theorem deriveNogoods_justifies {i : Interpretation} {tuples : List Tuple} {derived : List Nogood}
    (hw : WellFormed table) (h : (call.deriveNogoods i tuples table).1 = .ok derived)
    (hb : (call.deriveNogoods i tuples table).2.size ≤ 2 ^ 31) :
    derived = [] ∨ ∃ premise, (call.premise i table).1 = some premise ∧
      List.Forall₂ (fun t n => ∃ o, n = justify premise o ∧
        call.IsOutputAtom (call.deriveNogoods i tuples table).2 t o) tuples derived := by
  have hpremise := call.premise_reaches i table
  unfold deriveNogoods at h hb ⊢
  dsimp only at h hb ⊢
  cases hp : (call.premise i table).1 with
  | none =>
    rw [hp] at h
    exact Or.inl (Except.ok.inj h).symm
  | some premise =>
    simp only [hp] at h hb ⊢
    have hstores := call.storeOutputAtoms_reaches (call.premise i table).2 tuples
    cases hs : (call.storeOutputAtoms (call.premise i table).2 tuples).1 with
    | error e => simp [hs, Except.map] at h
    | ok outputs =>
      simp only [hs, Except.map, Except.ok.injEq] at h
      subst h
      have hstored := storeOutputAtoms_ok (hw.reaches hpremise (Nat.le_trans hstores.size_le hb))
        hs hb
      exact Or.inr ⟨premise, rfl, List.forall₂_map_right_iff.mpr
        (hstored.imp fun _ o ho => ⟨o, rfl, ho⟩)⟩

theorem conclude_stages {settings : Settings} {i : Interpretation} {submitted : List Nogood}
    {final : SymbolTable} {draft : Draft}
    (h : call.conclude settings i answer submitted table = (.ok draft, final)) :
    ∃ middle, Reaches table middle ∧
      (draft.derived = [] ∨
        call.deriveNogoods i answer.trueTuples.toList table = (.ok draft.derived, middle)) ∧
      call.storeAnswer answer (if draft.provisional then .unknown else .true) middle =
        (.ok draft.outputs, final) := by
  unfold conclude at h
  dsimp only at h
  split at h
  · cases h
  · next derived hlearned =>
    split at h
    · cases h
    · next outputs hstored =>
      obtain ⟨hok, rfl⟩ := Prod.mk.inj h
      obtain rfl := Except.ok.inj hok
      dsimp only at hstored ⊢
      by_cases hl : call.learns settings = true
      · rw [if_pos hl] at hlearned hstored ⊢
        exact ⟨_, call.deriveNogoods_reaches i _ table, Or.inr (Prod.ext hlearned rfl),
          Prod.ext hstored rfl⟩
      · rw [if_neg hl] at hlearned hstored ⊢
        exact ⟨table, .refl, Or.inl (Except.ok.inj hlearned).symm, Prod.ext hstored rfl⟩

end Invocation

namespace Evaluator

def Call.invocation (c : Call) (atom : ExternalAtom) : Invocation :=
  ⟨atom.signature, c.query.input⟩

def Call.askedTable (c : Call) (atom : ExternalAtom) : SymbolTable :=
  (atom.ask c.query c.table).2.table

/-- The handle stands for the tuple in the call: it is the one that the output atom is stored under,
the atom got no other one when it stored the output atom itself, and a nogood derived for the tuple
negates it. -/
structure Call.StandsFor (c : Call) (atom : ExternalAtom) (t : Tuple) (o : Symbol) : Prop where
  stored : (c.invocation atom).storeOutputAtom c.outcome.table t = (.ok o, c.outcome.table)
  returned : ∀ (w : Workspace) (o' : Symbol),
    (atom.retrieve c.query).Performs (c.invocation atom) (.outputAtom t) w (.ofTable c.table) →
    ((c.invocation atom).storeOutputAtom w.table t).1 = .ok o' → o' = o
  negated : ∀ (draft : Draft) (n : Nogood), c.attempt.result = .ok draft →
    (t, n) ∈ draft.answer.trueTuples.toList.zip draft.derived →
    ∃ premise, ((c.invocation atom).premise c.query.interpretation (c.askedTable atom)).1 =
      some premise ∧ n = Invocation.justify premise o

section Stages
variable {c : Call} {atom : ExternalAtom} (hreached : Reaches .empty c.table)
  (hb : c.outcome.table.size ≤ 2 ^ 31)
  (hfind : c.evaluator.registry.find? c.predicate = some atom)
include hreached hb hfind

theorem Call.stages {draft : Draft} (hd : c.attempt.result = .ok draft) :
    ∃ middle, WellFormed (c.askedTable atom) ∧ Reaches (c.askedTable atom) middle ∧
      WellFormed middle ∧ Reaches middle c.outcome.table ∧
      (draft.derived = [] ∨ (c.invocation atom).deriveNogoods c.query.interpretation
        draft.answer.trueTuples.toList (c.askedTable atom) = (.ok draft.derived, middle)) ∧
      (c.invocation atom).storeAnswer draft.answer (if draft.provisional then .unknown else .true)
        middle = (.ok draft.outputs, c.outcome.table) := by
  obtain ⟨atom', hfind', hattempt⟩ := Call.attempt_ok hd
  obtain rfl := Option.some.inj (hfind.symm.trans hfind')
  rw [c.outcome_table, hattempt] at hb ⊢
  rw [hattempt] at hd
  obtain ⟨given, dropped, -, -, -, hconclude⟩ := ExternalAtom.attempt_ok hd
  obtain ⟨middle, hmiddle, hderived, hstored⟩ := Invocation.conclude_stages hconclude
  have hstores := (c.invocation atom).storeAnswer_reaches draft.answer
    (if draft.provisional then .unknown else .true) middle
  rw [show (c.invocation atom).storeAnswer _ _ middle = _ from hstored] at hstores
  have hasked := hreached.trans (atom.ask_reaches c.query c.table)
  have hle := Nat.le_trans hstores.size_le hb
  exact ⟨middle, hasked.wellFormed (Nat.le_trans hmiddle.size_le hle), hmiddle,
    (hasked.trans hmiddle).wellFormed hle, hstores, hderived, hstored⟩

theorem Call.labelled {e : Evaluation} (he : c.outcome.result = .ok e) :
    e.Labelled (c.invocation atom) c.outcome.table := by
  obtain ⟨draft, hd, hanswer, houtputs, hprovisional⟩ := Call.outcome_ok he
  obtain ⟨middle, -, -, hw, -, -, hstored⟩ := Call.stages hreached hb hfind hd
  rw [← hanswer, ← houtputs, ← hprovisional] at hstored
  have htrue : ∀ t ∈ e.answer.trueTuples, e.truthOf t = if e.provisional then .unknown else .true :=
    fun t => Evaluation.truthOf_of_true
  have hunknown : ∀ t ∈ e.answer.unknownTuples, e.truthOf t = .unknown :=
    fun t => Evaluation.truthOf_of_unknown
  have hentries := Invocation.storeAnswer_ok hw (congrArg Prod.fst hstored) (by rwa [hstored])
    htrue hunknown
  rwa [hstored] at hentries

end Stages

namespace Call.Kept
variable {calls : List Call} {ev : Evaluator} {table final : SymbolTable} {c c' : Call}
  {atom atom' : ExternalAtom} {draft : Draft} {e : Evaluation} {t t' : Tuple} {o : Symbol}

theorem labelled (h : c.Kept ev table) (hb : c.outcome.table.size ≤ 2 ^ 31)
    (hfind : c.evaluator.registry.find? c.predicate = some atom)
    (he : c.outcome.result = .ok e) : e.Labelled (c.invocation atom) c.outcome.table :=
  Call.labelled h.reached hb hfind he

theorem standsFor (h : c.Kept ev table) (hb : c.outcome.table.size ≤ 2 ^ 31)
    (hfind : c.evaluator.registry.find? c.predicate = some atom)
    (he : c.outcome.result = .ok e)
    (ho : (c.invocation atom).IsOutputAtom c.outcome.table t o) : c.StandsFor atom t o := by
  have hw : WellFormed c.outcome.table := (h.reached.trans c.outcome_reaches).wellFormed hb
  obtain ⟨draft, hd, -, -, -⟩ := Call.outcome_ok he
  obtain ⟨middle, hasked, haskedReaches, -, hmiddle, hderived, -⟩ :=
    Call.stages h.reached hb hfind hd
  refine ⟨ho.store_eq hw, ?_, ?_⟩
  · -- what the program itself stored for the tuple is still its output atom in the end
    intro w o' hperforms hstored
    obtain ⟨hbefore, hafter⟩ := hperforms.reaches
    have hstores := (c.invocation atom).storeOutputAtom_reaches w.table t
    have hrest := (hafter.trans haskedReaches).trans hmiddle
    have hle := Nat.le_trans hrest.size_le hb
    have hwell := (h.reached.trans hbefore).wellFormed (Nat.le_trans hstores.size_le hle)
    have ho' := (Invocation.isOutputAtom_of_store hwell hstored hle).extend hrest.toExtends
    exact ho'.unique hw ho
  · intro draft' n hd' hn
    obtain rfl := Except.ok.inj (hd.symm.trans hd')
    rcases hderived with hnone | hderived
    · simp [hnone] at hn
    · have hjustified := Invocation.deriveNogoods_justifies hasked (congrArg Prod.fst hderived)
        (by rw [hderived]; exact Nat.le_trans hmiddle.size_le hb)
      rw [hderived] at hjustified
      rcases hjustified with hnone | ⟨premise, hpremise, hall⟩
      · simp [hnone] at hn
      · obtain ⟨o', rfl, ho'⟩ := List.forall₂_zip hall hn
        rw [(ho'.extend hmiddle.toExtends).unique hw ho]
        exact ⟨premise, hpremise, rfl⟩

theorem outputAtom_eq_iff (h : c.Kept ev table) (h' : c'.Kept ev table)
    (hw : WellFormed table) (hfind : c.evaluator.registry.find? c.predicate = some atom)
    (hfind' : c'.evaluator.registry.find? c'.predicate = some atom') {o' : Symbol}
    (ho : (c.invocation atom).IsOutputAtom table t o)
    (ho' : (c'.invocation atom').IsOutputAtom table t' o') :
    o = o' ↔ c.predicate = c'.predicate ∧ c.query.input = c'.query.input ∧ t = t' := by
  have hsame : c.predicate = c'.predicate → atom = atom' := by
    intro hp
    have hlater := h.find c.predicate atom hfind
    rw [hp, h'.find c'.predicate atom' hfind'] at hlater
    exact (Option.some.inj hlater).symm
  constructor
  · rintro rfl
    obtain ⟨hname, hargs⟩ := ho.injective ho'
    have hp : c.predicate = c'.predicate :=
      (h.sound _ _ hfind).1.symm.trans (hname.trans (h'.sound _ _ hfind').1)
    obtain rfl := hsame hp
    -- The same atom gives tuples of the same length, so the arguments split at the same place.
    obtain ⟨hinput, htuple⟩ := List.append_inj' hargs (ho.1.trans ho'.1.symm)
    exact ⟨hp, hinput, htuple⟩
  · rintro ⟨hp, hinput, rfl⟩
    obtain rfl := hsame hp
    rw [Call.invocation, ← hinput] at ho'
    exact ho.unique hw ho'

end Call.Kept

variable {calls : List Call} {ev : Evaluator} {table : SymbolTable}

/-- The output atoms of every successful call have the values of the reported tuples, one entry for
each, and no two entries of one or of two calls share an atom without sharing predicate, input and
tuple. -/
theorem outputs_identify_answers (h : Session calls ev table) (hb : table.size ≤ 2 ^ 31) :
    (∀ c ∈ calls, ∀ atom, c.evaluator.registry.find? c.predicate = some atom →
      ∀ e, c.outcome.result = .ok e →
        e.outputs.length = e.answer.trueTuples.size + e.answer.unknownTuples.size ∧
        (∀ t, t ∈ e.answer.trueTuples ∨ t ∈ e.answer.unknownTuples →
          ∃! entry : Symbol × Truth, e.Entry t entry.1 entry.2) ∧
        (e.outputs.map Prod.fst).Nodup ∧
        (∀ t o v, e.Entry t o v → c.StandsFor atom t o ∧ v = e.truthOf t) ∧
        ∀ t, (∀ o v, ¬e.Entry t o v) →
          e.truthOf t = if e.provisional then .unknown else .false) ∧
    ∀ c ∈ calls, ∀ c' ∈ calls, ∀ e e', c.outcome.result = .ok e → c'.outcome.result = .ok e' →
      ∀ t o v t' o' v', e.Entry t o v → e'.Entry t' o' v' →
        (o = o' ↔ c.predicate = c'.predicate ∧ c.query.input = c'.query.input ∧ t = t') := by
  have hw := h.reached.wellFormed hb
  have hlabelled : ∀ c ∈ calls, ∀ atom, c.evaluator.registry.find? c.predicate = some atom →
      ∀ e, c.outcome.result = .ok e → c.Kept ev table ∧ c.outcome.table.size ≤ 2 ^ 31 ∧
        e.Labelled (c.invocation atom) c.outcome.table := by
    intro c hc atom hfind e he
    have hkept := h.kept c hc
    have hle := Nat.le_trans hkept.reaches.size_le hb
    exact ⟨hkept, hle, hkept.labelled hle hfind he⟩
  constructor
  · intro c hc atom hfind e he
    obtain ⟨hkept, hle, hentries⟩ := hlabelled c hc atom hfind e he
    have hwc : WellFormed c.outcome.table := (hkept.reached.trans c.outcome_reaches).wellFormed hle
    refine ⟨hentries.length_outputs, fun t ht => ?_, hentries.nodup_outputs, fun t o v hmem => ?_,
      fun t => hentries.truthOf_of_no_entry⟩
    · exact hentries.existsUnique_entry hwc (Answer.mem_reported.mpr ht)
    · obtain ⟨hv, ho⟩ := hentries.entry hmem
      exact ⟨hkept.standsFor hle hfind he ho, hv.symm⟩
  · intro c hc c' hc' e e' he he' t o v t' o' v' hmem hmem'
    obtain ⟨draft, hd, -⟩ := Call.outcome_ok he
    obtain ⟨draft', hd', -⟩ := Call.outcome_ok he'
    obtain ⟨atom, hfind, -⟩ := Call.attempt_ok hd
    obtain ⟨atom', hfind', -⟩ := Call.attempt_ok hd'
    obtain ⟨hkept, hle, hentries⟩ := hlabelled c hc atom hfind e he
    obtain ⟨hkept', hle', hentries'⟩ := hlabelled c' hc' atom' hfind' e' he'
    have ho := (hentries.entry hmem).2.extend hkept.reaches.toExtends
    have ho' := (hentries'.entry hmem').2.extend hkept'.reaches.toExtends
    exact hkept.outputAtom_eq_iff hkept' hw hfind hfind' ho ho'

/-- The same input and tuple under two predicates have two output atoms, and the second call got its
own one when it submitted a nogood. -/
theorem outputs_identify_answers_twoCalls :
    ∃ atom e e' o', secondCall.evaluator.registry.find? "testSetMinusLearn" = some atom ∧
      firstCall.outcome.result = .ok e ∧ secondCall.outcome.result = .ok e' ∧
      e.Entry [⟨4⟩] ⟨14⟩ .true ∧ e'.Entry [⟨4⟩] o' .true ∧ o' ≠ ⟨14⟩ ∧
      secondCall.StandsFor atom [⟨4⟩] o' ∧ e'.truthOf [⟨4⟩] = .true := by
  have hb : secondCall.outcome.table.size ≤ 2 ^ 31 := by decide
  obtain ⟨e, he, hmem⟩ : ∃ e, firstCall.outcome.result = .ok e ∧
      e.Entry [⟨4⟩] ⟨14⟩ .true := ⟨_, rfl, by unfold Evaluation.Entry; decide⟩
  obtain ⟨e', he', hreported, htruth⟩ : ∃ e, secondCall.outcome.result = .ok e ∧
      [⟨4⟩] ∈ e.answer.trueTuples ∧ e.truthOf [⟨4⟩] = .true := ⟨_, rfl, by decide, by decide⟩
  obtain ⟨atom, hatom⟩ : ∃ atom,
      secondCall.evaluator.registry.find? secondCall.predicate = some atom := ⟨_, rfl⟩
  obtain ⟨hcalls, hpairs⟩ := outputs_identify_answers twoCalls hb
  obtain ⟨-, hunique, -, hentries, -⟩ := hcalls secondCall (by simp) atom hatom e' he'
  obtain ⟨⟨o', v⟩, hmem', -⟩ := hunique [⟨4⟩] (Or.inl hreported)
  obtain ⟨hstands, hv⟩ := hentries _ _ _ hmem'
  obtain rfl : v = .true := hv.trans htruth
  have hiff := hpairs firstCall (by simp) secondCall (by simp) e e' he he' _ _ _ _ _ _ hmem hmem'
  refine ⟨atom, e, e', o', hatom, he, he', hmem, hmem', fun hsame => ?_, hstands, htruth⟩
  exact absurd (hiff.mp hsame.symm).1 (by decide)

end Evaluator

end ExternalAtoms
