import ExternalAtoms.Proofs.Bundled.Agreement
import ExternalAtoms.Proofs.Evaluation.Alike

/-! # Bundled atoms in two sessions

Every bundled atom is asked alike in two sessions: what it reads does not depend on the numbering of
the terms, and what it stores is found under alike handles. So its evaluations are alike, whatever
happened in the two sessions before.
-/
namespace ExternalAtoms
open SymbolTable Sample

namespace Answer
variable {table table' : SymbolTable} {tuples tuples' : List Tuple}

theorem alike_ofTuples (h : Paired (table.AlikeTuple table') (· ∈ tuples) (· ∈ tuples')) :
    Answer.Alike table table' (.ofTuples tuples) (.ofTuples tuples') where
  trueTuples := by simpa only [mem_ofTuples] using h
  unknownTuples := by
    simp only [unknownTuples_ofTuples]
    exact .of_none (fun _ => Std.ExtTreeSet.not_mem_empty) fun _ => Std.ExtTreeSet.not_mem_empty

theorem alike_singleton {s s' : Symbol} (h : table.Alike table' s s') :
    Answer.Alike table table' (.ofTuples [[s]]) (.ofTuples [[s']]) := by
  have htuple : table.AlikeTuple table' [s] [s'] := .cons h .nil
  refine alike_ofTuples ⟨fun t ht => ⟨[s'], List.mem_singleton_self _, ?_⟩,
    fun t' ht' => ⟨[s], List.mem_singleton_self _, ?_⟩⟩
  · rwa [List.mem_singleton.mp ht]
  · rwa [List.mem_singleton.mp ht']

end Answer

namespace Bundled
open Retrieval
variable {table table' : SymbolTable} {q q' : Query} {call call' : Invocation} {w w' : Workspace}

theorem alike_verdict (v : Truth) : Answer.Alike table table' (verdict v) (verdict v) := by
  have hsame : ∀ {P : Tuple → Prop}, (∀ t, P t → t = []) →
      Paired (table.AlikeTuple table') P P := by
    intro P hP
    refine ⟨fun t ht => ⟨t, ht, ?_⟩, fun t ht => ⟨t, ht, ?_⟩⟩
    · rw [hP t ht]
      exact .nil
    · rw [hP t ht]
      exact .nil
  exact ⟨hsame fun t ht => (mem_verdict.mp ht).2, hsame fun t ht => (mem_unknown_verdict.mp ht).2⟩

theorem operand_eq {s s' : Symbol} (h : table.Alike table' s s') :
    operand table s = operand table' s' := by
  rw [operand, operand, h.render_eq]

section Read
variable (hw : WellFormed table) (hw' : WellFormed table') (hq : Query.Alike table table' q q')
  {p p' s s' : Symbol} (hp : table.Alike table' p p') (hs : table.Alike table' s s')
include hw hw' hq

theorem integer_argument_eq (index : Nat) :
    (q.arg? index).bind table.integer? = (q'.arg? index).bind table'.integer? := by
  rcases hq.arg? index with ⟨hnone, hnone'⟩ | ⟨x, x', hx, hx', hsame⟩
  · rw [hnone, hnone']
    rfl
  · rw [hx, hx']
    exact (hsame.reads hw hw').2.1

include hp

/-- No fewer atoms of the counterpart of a predicate have a value. -/
theorem valued_le_of_alike (v : Truth) : valued v (entriesOf table q.interpretation p) ≤
    valued v (entriesOf table' q'.interpretation p') := by
  refine countP_entriesOf_le_of_counterparts (R := table.Alike table') (P := (· = v))
    (fun b c b' hb hc => hb.left_unique hw hc) hq.built.snapshot hq.built'.snapshot ?_
  intro b u hu hhead huv
  obtain ⟨b', hu', hsame⟩ := (hq.interpretation u).forth b hu
  have hheaded := hsame.headedBy hw hw' hp (hhead.headedBy hw)
  exact ⟨b', u, hu', hheaded.headOf hw', huv, hsame⟩

theorem tally_eq : tallyOf (entriesOf table q.interpretation p) =
    tallyOf (entriesOf table' q'.interpretation p') := by
  have hvalued : ∀ v, valued v (entriesOf table q.interpretation p) =
      valued v (entriesOf table' q'.interpretation p') := fun v =>
    Nat.le_antisymm (valued_le_of_alike hw hw' hq hp v)
      (valued_le_of_alike hw' hw hq.symm hp.symm v)
  rw [tallyOf_eq, tallyOf_eq, hvalued, hvalued]

include hs

theorem Remains.exists_alike {t : Tuple} (h : Remains q.interpretation p s t) :
    ∃ t', Remains q'.interpretation p' s' t' ∧ table.AlikeTuple table' t t' := by
  have hi := hq.built.snapshot.faithful hw
  have hi' := hq.built'.snapshot.faithful hw'
  obtain ⟨t', ht', hsame⟩ := hq.interpretation.exists_of_mem_extension hw hw' hi hi' hp h.1
  refine ⟨t', ⟨ht', fun hexcluded => ?_⟩, hsame⟩
  obtain ⟨t₁, ht₁, hsame₁⟩ :=
    hq.interpretation.symm.exists_of_mem_extension hw' hw hi' hi hs.symm hexcluded
  obtain rfl := hsame.left_unique hw hsame₁.symm
  exact h.2 ht₁

theorem remains_paired : Paired (table.AlikeTuple table') (Remains q.interpretation p s)
    (Remains q'.interpretation p' s') where
  forth t ht := ht.exists_alike hw hw' hq hp hs
  back t' ht' := by
    obtain ⟨t, ht, hsame⟩ := ht'.exists_alike hw' hw hq.symm hp.symm hs.symm
    exact ⟨t, ht, hsame.symm⟩

theorem remainder_alike : Answer.Alike table table' (remainder q.interpretation p s)
    (remainder q'.interpretation p' s') := by
  refine Answer.alike_ofTuples ?_
  simp only [mem_difference]
  exact remains_paired hw hw' hq hp hs

end Read

section Parts
variable (hw : w.Alike w')
include hw

theorem storeText_agrees (text : String) (quoted : Bool) :
    Agree call call' w w' SymbolTable.Alike (storeText text quoted) (storeText text quoted) := by
  cases quoted with
  | «true» => exact agree_string hw text
  | «false» => exact agree_constant hw text

theorem readOperand_agrees {s s' : Symbol} (hs : w.table.Alike w'.table s s') :
    Agree call call' w w' Same (readOperand s) (readOperand s') :=
  agree_of_read (agree_ofStored hw (operand_eq hs))

variable (hq : Query.Alike w.table w'.table q q')
include hq

theorem argument_agrees (index : Nat) (predicate message : String) :
    Agree call call' w w' SymbolTable.Alike (argument q index predicate message)
      (argument q' index predicate message) := by
  unfold argument
  rcases hq.arg? index with ⟨hnone, hnone'⟩ | ⟨s, s', hs, hs', hsame⟩
  · rw [hnone, hnone']
    exact agree_fail _ _
  · rw [hs, hs']
    exact agree_pure hw hsame

theorem readOperands_agrees :
    Agree call call' w w' Same (readOperands q.input) (readOperands q'.input) := by
  refine agree_of_read (agree_ofStored hw ?_)
  exact mapM_eq_of_forall₂ (hq.input.imp fun _ _ hs => operand_eq hs)

theorem integerArgument_agrees (index : Nat) (predicate : String) :
    Agree call call' w w' Same (integerArgument q index predicate)
      (integerArgument q' index predicate) := by
  refine agree_of_read ?_
  rw [integer_argument_eq hw.wellFormed hw.wellFormed' hq index]
  cases (q'.arg? index).bind w'.table.integer? with
  | none => exact agree_fail _ _
  | some value => exact agree_pure hw rfl

theorem countInputs_agrees {p p' : Symbol} (hp : w.table.Alike w'.table p p') :
    Agree call call' w w' Same (countInputs q p) (countInputs q' p') :=
  agree_of_ok hw (countInputs_ok hq.built.snapshot p) (countInputs_ok hq.built'.snapshot p')
    (tally_eq hw.wellFormed hw.wellFormed' hq hp)

end Parts

theorem reporting_agrees {program program' : Retrieval Symbol}
    (h : Agree call call' w w' SymbolTable.Alike program program') :
    Agree call call' w w' Answer.Alike (do return .ofTuples [[← program]])
      (do return .ofTuples [[← program']]) :=
  h.bind fun hs hv _ _ => agree_pure hv (Answer.alike_singleton hs)

section Whole
variable (hw : w.Alike w') (hq : Query.Alike w.table w'.table q q')
include hw hq

theorem concat_agrees : Agree call call' w w' Answer.Alike (concat q) (concat q') :=
  (readOperands_agrees hw hq).bind_same fun _ hv _ _ => reporting_agrees (agree_string hv _)

theorem joinOperands_agrees :
    Agree call call' w w' Answer.Alike (joinOperands q) (joinOperands q') :=
  (readOperands_agrees hw hq).bind_same fun _ hv _ _ => reporting_agrees (storeText_agrees hv _ _)

theorem strlen_agrees : Agree call call' w w' Answer.Alike (strlen q) (strlen q') := by
  refine (argument_agrees hw hq 0 _ _).bind fun hs hv _ _ => ?_
  refine (readOperand_agrees hv hs).bind_same fun operand hv _ _ => ?_
  exact reporting_agrees (agree_integer hv _)

theorem substr_agrees : Agree call call' w w' Answer.Alike (substr q) (substr q') := by
  refine (argument_agrees hw hq 0 _ _).bind fun hs hv hr hr' => ?_
  replace hq := hq.extend hr hr'
  refine (readOperand_agrees hv hs).bind_same fun operand hv hr hr' => ?_
  replace hq := hq.extend hr hr'
  refine (integerArgument_agrees hv hq 1 _).bind_same fun start hv hr hr' => ?_
  replace hq := hq.extend hr hr'
  refine (integerArgument_agrees hv hq 2 _).bind_same fun count hv _ _ => ?_
  exact reporting_agrees (storeText_agrees hv _ _)

theorem identityOfConstant_agrees :
    Agree call call' w w' Answer.Alike (identityOfConstant q) (identityOfConstant q') :=
  reporting_agrees (argument_agrees hw hq 0 _ _)

theorem smallerThan_agrees :
    Agree call call' w w' Answer.Alike (smallerThan q) (smallerThan q') := by
  refine (integerArgument_agrees hw hq 0 _).bind_same fun a hv hr hr' => ?_
  replace hq := hq.extend hr hr'
  refine (integerArgument_agrees hv hq 1 _).bind_same fun b hv _ _ => ?_
  exact agree_pure hv (alike_verdict _)

theorem isEmpty_agrees : Agree call call' w w' Answer.Alike (isEmpty q) (isEmpty q') := by
  refine (argument_agrees hw hq 0 _ _).bind fun hp hv hr hr' => ?_
  replace hq := hq.extend hr hr'
  refine (countInputs_agrees hv hq hp).bind_same fun tally hv _ _ => ?_
  exact agree_pure hv (alike_verdict _)

theorem numberOfBalls_agrees :
    Agree call call' w w' Answer.Alike (numberOfBalls q) (numberOfBalls q') := by
  refine (argument_agrees hw hq 0 _ _).bind fun hp hv hr hr' => ?_
  replace hq := hq.extend hr hr'
  refine (integerArgument_agrees hv hq 1 _).bind_same fun lower hv₁ hr₁ hr₁' => ?_
  replace hq := hq.extend hr₁ hr₁'
  refine (integerArgument_agrees hv₁ hq 2 _).bind_same fun upper hv₂ hr₂ hr₂' => ?_
  replace hq := hq.extend hr₂ hr₂'
  replace hp := hp.extend hv.wellFormed.admits (hr₁.trans hr₂).toExtends hv.wellFormed'.admits
    (hr₁'.trans hr₂').toExtends
  refine (countInputs_agrees hv₂ hq hp).bind_same fun tally hv _ _ => ?_
  exact agree_pure hv (alike_verdict _)

theorem identity_agrees : Agree call call' w w' Answer.Alike (identity q) (identity q') := by
  refine (argument_agrees hw hq 0 _ _).bind fun {p p' v v'} hp hv hr hr' => ?_
  replace hq := hq.extend hr hr'
  have htuples := hq.interpretation.extension hv.wellFormed hv.wellFormed'
    (hq.built.snapshot.faithful hv.wellFormed) (hq.built'.snapshot.faithful hv.wellFormed') hp
  have hunary : (q.extension p).toList.all (fun tuple => tuple.length == 1) =
      (q'.extension p').toList.all fun tuple => tuple.length == 1 := by
    rw [Bool.eq_iff_iff]
    simp only [List.all_eq_true, Std.ExtTreeSet.mem_toList, beq_iff_eq]
    exact AlikeTuple.forall_length_iff htuples 1
  dsimp only
  rw [hunary]
  split
  · refine agree_pure hv (Answer.alike_ofTuples ?_)
    simp only [Std.ExtTreeSet.mem_toList]
    exact htuples
  · exact agree_fail _ _

end Whole

section Submission
variable {p p' s s' : Symbol} {t t' : Tuple} {signature : Signature}

/-- Where two predicates are expected, two predicate constants are accepted and nothing else. -/
theorem predicates_of_checkInput (hinputs : signature.inputs = [.predicate, .predicate])
    (h : signature.checkInput table q.input = .ok ()) : ∃ p s, q.arg? 0 = some p ∧
      q.arg? 1 = some s ∧ (p.isNegated = false ∧ table.isPredicateConstant p = true) ∧
      s.isNegated = false ∧ table.isPredicateConstant s = true := by
  obtain ⟨hlength, haccepts⟩ := Signature.checkInput_ok_iff.mp h
  obtain ⟨p, s, hinput⟩ : ∃ p s, q.input = [p, s] := by
    refine List.length_eq_two.mp ?_
    simpa [Signature.acceptsLength, Signature.hasTupleInput, hinputs] using hlength
  have hfirst : q.arg? 0 = some p := by rw [Query.arg?, hinput]; rfl
  have hsecond : q.arg? 1 = some s := by rw [Query.arg?, hinput]; rfl
  have hkinds : ∀ c index, q.arg? index = some c → signature.kindAt index = some .predicate →
      c.isNegated = false ∧ table.isPredicateConstant c = true := by
    intro c index hc hkind
    obtain ⟨⟨hpositive, -⟩, hpredicate⟩ := Signature.acceptsArgument_iff.mp (haccepts index c hc)
    exact ⟨hpositive, hpredicate hkind⟩
  exact ⟨p, s, hfirst, hsecond, hkinds p 0 hfirst (by simp [Signature.kindAt, hinputs]),
    hkinds s 1 hsecond (by simp [Signature.kindAt, hinputs])⟩

/-- The nogoods submitted for alike tuples are over alike literals. -/
theorem Excludes.alike {n n' : Nogood} (hw : WellFormed table) (hw' : WellFormed table')
    (hinput : table.AlikeTuple table' q.input q'.input) (hp : table.Alike table' p p')
    (hs : table.Alike table' s s') (ht : table.AlikeTuple table' t t')
    (h : Excludes ⟨signature, q.input⟩ table p s t n)
    (h' : Excludes ⟨signature, q'.input⟩ table' p' s' t' n') : Nogood.Alike table table' n n' := by
  obtain ⟨member, other, output, hmember, hother, houtput, rfl⟩ := h
  obtain ⟨member', other', output', hmember', hother', houtput', rfl⟩ := h'
  have hsame := Alike.of_atomOf hw hw' hp ht hmember hmember'
  have hsame' := Alike.of_atomOf hw hw' hs ht hother hother'
  have hreported := houtput.alike hw hw' hinput ht houtput'
  exact .ofList (.cons hsame (.cons hsame'.flip (.cons hreported.flip .nil)))

section Run
variable (hw : WellFormed table) (hw' : WellFormed table') (hq : Query.Alike table table' q q')
  (hp : table.Alike table' p p') (hs : table.Alike table' s s')
  (hrun : ((difference (q.extension p) (q.extension s)).forM (learnOutput p s)).run
    ⟨signature, q.input⟩ (.ofTable table) = (.ok (), w))
  (hrun' : ((difference (q'.extension p') (q'.extension s')).forM (learnOutput p' s')).run
    ⟨signature, q'.input⟩ (.ofTable table') = (.ok (), w'))
  (hb : w.table.size ≤ 2 ^ 31) (hb' : w'.table.size ≤ 2 ^ 31)
include hw hw' hq hp hs hrun hrun' hb hb'

theorem exists_submitted {n : Nogood} (hn : n ∈ w.pending.toList) :
    ∃ n' ∈ w'.pending.toList, Nogood.Alike w.table w'.table n n' := by
  have hr := reaches_of_run _ hrun
  have hr' := reaches_of_run _ hrun'
  have hlater : ∀ {x x' : Symbol}, table.Alike table' x x' → w.table.Alike w'.table x x' :=
    fun hx => hx.extend hw.admits hr.toExtends hw'.admits hr'.toExtends
  rcases learnOutputs_ok hw hrun hb hn with hn | ⟨t, ht, hexcludes⟩
  · simp [Workspace.ofTable] at hn
  · obtain ⟨t', ht', hsame⟩ := Remains.exists_alike hw hw' hq hp hs (mem_difference.mp ht)
    obtain ⟨n', hn', hexcludes'⟩ :=
      excludes_of_learnOutputs hw' hrun' hb' (mem_difference.mpr ht')
    exact ⟨n', hn', hexcludes.alike (hw.reaches hr hb) (hw'.reaches hr' hb')
      (hq.input.imp fun _ _ => hlater) (hlater hp) (hlater hs) (hsame.imp fun _ _ => hlater)
      hexcludes'⟩

end Run

section Differences
variable (hw : (Workspace.ofTable table).Alike (.ofTable table'))
  (hq : Query.Alike table table' q q') (hinputs : signature.inputs = [.predicate, .predicate])
  (h : signature.checkInput table q.input = .ok ())
include hw hq hinputs h

theorem setMinus_agrees : Agree ⟨signature, q.input⟩ ⟨signature, q'.input⟩ (.ofTable table)
    (.ofTable table') Answer.Alike (setMinus q) (setMinus q') := by
  obtain ⟨p, s, hp, hs, -⟩ := predicates_of_checkInput hinputs h
  obtain ⟨p', hp', hpp'⟩ := hq.exists_arg? hp
  obtain ⟨s', hs', hss'⟩ := hq.exists_arg? hs
  exact agree_of_ok hw (setMinus_run hp hs _ _) (setMinus_run hp' hs' _ _)
    (remainder_alike hw.wellFormed hw.wellFormed' hq hpp' hss')

theorem setMinusTrueAtoms_agrees : Agree ⟨signature, q.input⟩ ⟨signature, q'.input⟩
    (.ofTable table) (.ofTable table') Answer.Alike (setMinusTrueAtoms q)
    (setMinusTrueAtoms q') := by
  obtain ⟨p, s, hp, hs, -⟩ := predicates_of_checkInput hinputs h
  obtain ⟨p', hp', hpp'⟩ := hq.exists_arg? hp
  obtain ⟨s', hs', hss'⟩ := hq.exists_arg? hs
  exact agree_of_ok hw (setMinusTrueAtoms_run hp hs _ hq.built.snapshot)
    (setMinusTrueAtoms_run hp' hs' _ hq.built'.snapshot)
    (remainder_alike hw.wellFormed hw.wellFormed' hq hpp' hss')

/-- Both runs can make their submissions or neither, and they leave nogoods over alike literals. -/
theorem setMinusLearn_agrees (h' : signature.checkInput table' q'.input = .ok ())
    (hname : Text.isIdentifier signature.predicate = true) :
    Agree ⟨signature, q.input⟩ ⟨signature, q'.input⟩ (.ofTable table) (.ofTable table') Answer.Alike
      (setMinusLearn q) (setMinusLearn q') := by
  obtain ⟨p, s, hp, hs, ⟨hpn, hpc⟩, hsn, hsc⟩ := predicates_of_checkInput hinputs h
  obtain ⟨p', hp', hpp'⟩ := hq.exists_arg? hp
  obtain ⟨s', hs', hss'⟩ := hq.exists_arg? hs
  have hw₁ := hw.wellFormed
  have hw₁' := hw.wellFormed'
  -- the two loops may take their tuples in different orders, so they are compared as a whole
  intro hb hb'
  refine .of_succeeds ?_ fun {given w given' w'} hrun hrun' => ?_
  · rw [setMinusLearn_succeeds_iff hq.built h hname hp hs hpn hpc hsn hsc hb,
      setMinusLearn_succeeds_iff hq.built' h' hname hp' hs' (hpp'.1.symm.trans hpn)
        (hpp'.isPredicateConstant hw₁ hw₁' hpc) (hss'.1.symm.trans hsn)
        (hss'.isPredicateConstant hw₁ hw₁' hsc) hb']
    exact AlikeTuple.forall_length_iff (remains_paired hw₁ hw₁' hq hpp' hss') _
  · rw [hrun] at hb
    rw [hrun'] at hb'
    obtain ⟨rfl, hlearn⟩ := (setMinusLearn_run_ok hp hs).mp hrun
    obtain ⟨rfl, hlearn'⟩ := (setMinusLearn_run_ok hp' hs').mp hrun'
    have hr := reaches_of_run _ hrun
    have hr' := reaches_of_run _ hrun'
    have hanswer := (remainder_alike hw₁ hw₁' hq hpp' hss').extend hw₁.admits hr.toExtends
      hw₁'.admits hr'.toExtends
    refine ⟨hanswer, hw₁.reaches hr hb, hw₁'.reaches hr' hb', fun n hn => ?_, fun n' hn' => ?_⟩
    · exact exists_submitted hw₁ hw₁' hq hpp' hss' hlearn hlearn' hb hb' hn
    · obtain ⟨n, hn, hsame⟩ :=
        exists_submitted hw₁' hw₁ hq.symm hpp'.symm hss'.symm hlearn' hlearn hb' hb hn'
      exact ⟨n, hn, hsame.symm⟩

end Differences

end Submission

/-- The bundled atoms fail in both sessions or give alike answers. -/
theorem uniform_of_mem {a : ExternalAtom} (ha : a ∈ bundledAtoms) : a.Uniform := by
  intro table table' q q' hq hw h h'
  simp only [bundledAtoms, stringPlugin, testPlugin, List.mem_append, List.mem_cons,
    List.not_mem_nil, or_false] at ha
  rcases ha with (rfl | rfl | rfl) | rfl | rfl | rfl | rfl | rfl | rfl | rfl | rfl | rfl
  · exact concat_agrees hw hq
  · exact strlen_agrees hw hq
  · exact substr_agrees hw hq
  · exact joinOperands_agrees hw hq
  · exact setMinus_agrees hw hq rfl h
  · exact setMinusTrueAtoms_agrees hw hq rfl h
  · exact setMinusLearn_agrees hw hq rfl h h' (by decide)
  · exact identity_agrees hw hq
  · exact identityOfConstant_agrees hw hq
  · exact smallerThan_agrees hw hq
  · exact isEmpty_agrees hw hq
  · exact numberOfBalls_agrees hw hq

theorem find?_of_mem {a : ExternalAtom} (ha : a ∈ bundledAtoms) {r : Registry}
    (hstring : r.Loads stringPlugin) (htest : r.Loads testPlugin) :
    r.find? a.predicate = some a := by
  rcases List.mem_append.mp ha with ha | ha
  · exact hstring a ha
  · exact htest a ha

/-- Evaluations of one atom under alike queries, with the same settings, fail in both sessions or
succeed in both. Then they present alike answers and values, and what one of them learns is in the
log of the other evaluator afterwards. The logs, the counters and the tables may differ before. -/
theorem evaluations_ignore_history {a : ExternalAtom} (ha : a ∈ bundledAtoms)
    {ev ev' : Evaluator} (hsettings : ev.settings = ev'.settings)
    (hstring : ev.registry.Loads stringPlugin) (htest : ev.registry.Loads testPlugin)
    (hstring' : ev'.registry.Loads stringPlugin) (htest' : ev'.registry.Loads testPlugin)
    {input input' : List Symbol} {i i' : Interpretation} (hi : i.BuiltOn table)
    (hi' : i'.BuiltOn table') (hinput : table.AlikeTuple table' input input')
    (hvalues : Interpretation.Alike table table' i i')
    {outcome outcome' : Evaluator.Outcome} (hout : ev.evaluate a.predicate input i table = outcome)
    (hout' : ev'.evaluate a.predicate input' i' table' = outcome')
    (hb : outcome.table.size ≤ 2 ^ 31) (hb' : outcome'.table.size ≤ 2 ^ 31) :
    ((∃ e, outcome.result = .ok e) ↔ ∃ e', outcome'.result = .ok e') ∧
    ∀ e e', outcome.result = .ok e → outcome'.result = .ok e' →
      Evaluation.Alike outcome.table outcome'.table e e' ∧
      (∀ n ∈ e.learned, ∃ n' ∈ outcome'.evaluator.log.toList,
        Nogood.Alike outcome.table outcome'.table n n') ∧
      ∀ n' ∈ e'.learned, ∃ n ∈ outcome.evaluator.log.toList,
        Nogood.Alike outcome.table outcome'.table n n' := by
  subst hout
  subst hout'
  have hcalls : Evaluator.Call.Alike a ⟨ev, a.predicate, ⟨input, i⟩, table⟩
      ⟨ev', a.predicate, ⟨input', i'⟩, table'⟩ :=
    ⟨find?_of_mem ha hstring htest, find?_of_mem ha hstring' htest', hsettings,
      ⟨hi, hi', hinput, hvalues⟩, hb, hb'⟩
  have huniform : a.Uniform := uniform_of_mem ha
  refine ⟨⟨fun ⟨e, he⟩ => hcalls.succeeds huniform he,
    fun ⟨e', he'⟩ => hcalls.symm.succeeds huniform he'⟩, fun e e' he he' => ?_⟩
  refine ⟨hcalls.evaluation huniform he he', fun n hn => hcalls.learned huniform he he' hn,
    fun n' hn' => ?_⟩
  obtain ⟨n, hn, hsame⟩ := hcalls.symm.learned huniform he' he hn'
  exact ⟨n, hn, hsame.symm⟩

/-- The evaluator on which the string plugin was registered after the test plugin. -/
def equipped : Evaluator where
  registry :=
    { entries := (stringPlugin.atoms.foldl
        (fun (r : Registry) atom => r.insert "StringPlugin" atom) tester.registry).entries
      plugins := ["TestPlugin", "StringPlugin"] }

/-- The atoms `q(a)`, `p(b)` and `p(a)`, stored in this order and after an integer. -/
def elsewhere : SymbolTable :=
  SymbolTable.empty.runAll [.integer 7, .constant "b", .constant "q", .constant "a", .constant "p",
    .atom [⟨4⟩, ⟨6⟩], .atom [⟨8⟩, ⟨2⟩], .atom [⟨8⟩, ⟨6⟩]]

def oneLeftElsewhere (truth : Truth) : Assignment :=
  ((Assignment.empty.set ⟨10⟩ .false).set ⟨12⟩ truth).set ⟨14⟩ .true

def leftElsewhere (truth : Truth) : Interpretation := ((oneLeftElsewhere truth).build elsewhere).1

def outcomeHere : Evaluator.Outcome :=
  equipped.evaluate "testSetMinusLearn" [⟨0⟩, ⟨2⟩] (leftWhen .true) threeAtoms

/-- The nogood about `a` was submitted before, while `p(b)` was false. -/
def outcomeBefore : Evaluator.Outcome :=
  equipped.evaluate "testSetMinusLearn" [⟨8⟩, ⟨4⟩] (leftElsewhere .false) elsewhere

def outcomeElsewhere : Evaluator.Outcome :=
  outcomeBefore.evaluator.evaluate "testSetMinusLearn" [⟨8⟩, ⟨4⟩] (leftElsewhere .true)
    outcomeBefore.table

theorem equipped_loads :
    equipped.registry.Loads stringPlugin ∧ equipped.registry.Loads testPlugin := by
  have hregister : tester.registry.register stringPlugin = (.ok 3, equipped.registry) := rfl
  have hstring := Registry.loads_of_register (congrArg Prod.fst hregister)
  have htest := tester_loads.register stringPlugin
  rw [hregister] at hstring htest
  exact ⟨hstring, htest⟩

theorem leftElsewhere_builtOn (truth : Truth) : (leftElsewhere truth).BuiltOn elsewhere := by
  have hstart : Assignment.MadeOn elsewhere .empty := .start (runAll_reaches _ _)
  refine ⟨oneLeftElsewhere truth, elsewhere,
    ((hstart.set rfl rfl .false).set rfl rfl truth).set rfl rfl .true, rfl, ?_⟩
  cases truth <;> exact .refl

theorem mem_leftElsewhere (truth : Truth) (b : Symbol) :
    b ∈ (leftElsewhere truth).truths ↔ b = ⟨14⟩ ∨ b = ⟨12⟩ ∨ b = ⟨10⟩ := by
  have htruths : (leftElsewhere truth).truths = (oneLeftElsewhere truth).truths := by
    cases truth <;> rfl
  simp only [htruths, oneLeftElsewhere, Assignment.set, Assignment.empty, Std.ExtTreeMap.mem_insert,
    Std.LawfulEqCmp.compare_eq_iff_eq, Std.ExtTreeMap.not_mem_empty, or_false]
  simp only [eq_comm]

theorem leftWhen_alike (truth : Truth) :
    Interpretation.Alike threeAtoms elsewhere (leftWhen truth) (leftElsewhere truth) := by
  have hpa : threeAtoms.Alike elsewhere ⟨8⟩ ⟨14⟩ := ⟨rfl, _, rfl, rfl⟩
  have hqa : threeAtoms.Alike elsewhere ⟨10⟩ ⟨10⟩ := ⟨rfl, _, rfl, rfl⟩
  have hpb : threeAtoms.Alike elsewhere ⟨12⟩ ⟨12⟩ := ⟨rfl, _, rfl, rfl⟩
  have hvalues : ∀ {a a' : Symbol}, (a, a') ∈ [((⟨8⟩, ⟨14⟩) : Symbol × Symbol), (⟨10⟩, ⟨10⟩),
      (⟨12⟩, ⟨12⟩)] → (leftWhen truth).truths[a]? = (leftElsewhere truth).truths[a']? := by
    simp only [List.mem_cons, List.not_mem_nil, or_false, Prod.mk.injEq]
    rintro a a' (⟨rfl, rfl⟩ | ⟨rfl, rfl⟩ | ⟨rfl, rfl⟩) <;> cases truth <;> rfl
  intro v
  constructor
  · intro b hb
    have hmem : b ∈ (leftWhen truth).truths :=
      Std.ExtTreeMap.mem_iff_isSome_getElem?.mpr (by simp [hb])
    rcases (mem_leftWhen truth b).mp hmem with rfl | rfl | rfl
    · exact ⟨⟨12⟩, (hvalues (by simp)).symm.trans hb, hpb⟩
    · exact ⟨⟨10⟩, (hvalues (by simp)).symm.trans hb, hqa⟩
    · exact ⟨⟨14⟩, (hvalues (by simp)).symm.trans hb, hpa⟩
  · intro b hb
    have hmem : b ∈ (leftElsewhere truth).truths :=
      Std.ExtTreeMap.mem_iff_isSome_getElem?.mpr (by simp [hb])
    rcases (mem_leftElsewhere truth b).mp hmem with rfl | rfl | rfl
    · exact ⟨⟨8⟩, (hvalues (by simp)).trans hb, hpa⟩
    · exact ⟨⟨12⟩, (hvalues (by simp)).trans hb, hpb⟩
    · exact ⟨⟨10⟩, (hvalues (by simp)).trans hb, hqa⟩

/-- Two nogoods are learned in the one session and only one in the other. -/
theorem evaluations_ignore_history_elsewhere : ∃ e e', outcomeHere.result = .ok e ∧
    outcomeElsewhere.result = .ok e' ∧ e.learned.length = 2 ∧ e'.learned.length = 1 ∧
    Evaluation.Alike outcomeHere.table outcomeElsewhere.table e e' := by
  have hr : Reaches elsewhere outcomeBefore.table := equipped.evaluate_reaches _ _ _ _
  have hi := leftWhen_builtOn .true
  have hi' := leftElsewhere_builtOn .true
  have hinput : threeAtoms.AlikeTuple elsewhere [⟨0⟩, ⟨2⟩] [⟨8⟩, ⟨4⟩] :=
    .cons ⟨rfl, _, rfl, rfl⟩ (.cons ⟨rfl, _, rfl, rfl⟩ .nil)
  have hquery : Query.Alike threeAtoms outcomeBefore.table ⟨[⟨0⟩, ⟨2⟩], leftWhen .true⟩
      ⟨[⟨8⟩, ⟨4⟩], leftElsewhere .true⟩ :=
    Query.Alike.extend ⟨hi, hi', hinput, leftWhen_alike .true⟩ .refl hr
  have hmem : (⟨⟨"testSetMinusLearn", [.predicate, .predicate], 1, { learning := false }⟩,
      setMinusLearn⟩ : ExternalAtom) ∈ bundledAtoms := by
    simp [bundledAtoms, testPlugin]
  obtain ⟨hstring, htest⟩ := equipped_loads
  obtain ⟨hregistry, hsettings⟩ := equipped.evaluate_registry "testSetMinusLearn" [⟨8⟩, ⟨4⟩]
    (leftElsewhere .false) elsewhere
  have hruns : outcomeHere.table.size ≤ 2 ^ 31 ∧ outcomeElsewhere.table.size ≤ 2 ^ 31 ∧
      outcomeHere.result.toOption.map (fun e => e.learned.length) = some 2 ∧
      outcomeElsewhere.result.toOption.map (fun e => e.learned.length) = some 1 := by
    decide +kernel
  obtain ⟨hb, hb', hcount, hcount'⟩ := hruns
  obtain ⟨e, he, hlearned⟩ := Option.map_eq_some_iff.mp hcount
  obtain ⟨e', he', hlearned'⟩ := Option.map_eq_some_iff.mp hcount'
  rw [toOption_eq_some_iff] at he he'
  have hhere : equipped.evaluate "testSetMinusLearn" [⟨0⟩, ⟨2⟩] (leftWhen .true) threeAtoms =
      outcomeHere := rfl
  have hthere : outcomeBefore.evaluator.evaluate "testSetMinusLearn" [⟨8⟩, ⟨4⟩]
      (leftElsewhere .true) outcomeBefore.table = outcomeElsewhere := rfl
  have hall := (evaluations_ignore_history hmem hsettings.symm hstring htest (hregistry ▸ hstring)
    (hregistry ▸ htest) hquery.built hquery.built' hquery.input hquery.interpretation hhere hthere
    hb hb').2
  exact ⟨e, e', he, he', hlearned, hlearned', (hall e e' he he').1⟩

end Bundled

end ExternalAtoms
