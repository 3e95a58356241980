import ExternalAtoms.Proofs.Bundled.Plugins
import ExternalAtoms.Proofs.Evaluation.Session
import ExternalAtoms.Proofs.Evaluation.Success
import ExternalAtoms.Proofs.Evaluation.Value
import ExternalAtoms.Proofs.Registration

/-! # Three forms of one difference

Three atoms answer with the tuples of one extension that are not in another: one reads the
extensions, one scans the true atoms, and one submits a nogood for each tuple on the way. They
succeed on the same inputs, because the last of them can store what it submits exactly when the
tuples have the length of an output, which for the others is the condition of the answer check.
-/
namespace ExternalAtoms
open SymbolTable Sample

namespace Bundled
variable {call : Invocation} {p s : Symbol} {t : Tuple} {w w' : Workspace}

section Success
variable (hw : WellFormed w.table) (hpn : p.isNegated = false)
  (hp : w.table.isPredicateConstant p = true) (hsn : s.isNegated = false)
  (hs : w.table.isPredicateConstant s = true)
  (hname : Text.isIdentifier call.signature.predicate = true)

theorem atom_run_succeeds (call : Invocation) {args : List Symbol} (hpn : p.isNegated = false)
    (hp : w.table.isPredicateConstant p = true) (hargs : ∀ arg ∈ args, w.table.Usable arg) :
    ∃ a w', (Retrieval.atom (p :: args)).run call w = (.ok a, w') := by
  obtain ⟨name, hname⟩ := headName_of_isPredicateConstant hpn hp
  obtain ⟨a, ha⟩ := atom_succeeds hname hargs
  exact ⟨a, _, by rw [Retrieval.run_atom, ha]; rfl⟩

theorem negate_run_succeeds (call : Invocation) {a : Symbol} (ha : (w.table.isAtom a).1 = true) :
    ∃ w', (Retrieval.negate a).run call w = (.ok a.flip, w') :=
  ⟨_, by rw [Retrieval.run_negate, negate_of_isAtom ha]; rfl⟩

theorem outputAtom_run_succeeds (ht : call.Storable w.table t) :
    ∃ o w', (Retrieval.outputAtom t).run call w = (.ok o, w') := by
  obtain ⟨o, ho⟩ := Invocation.storeOutputAtom_succeeds_iff.mpr ht
  exact ⟨o, _, by rw [Retrieval.run_outputAtom, ho]; rfl⟩

theorem learn_run_succeeds {n : Nogood} (hne : n.literals ≠ [])
    (h : ∀ l ∈ n.literals, (w.table.isAtom l).1 = true) :
    ∃ w', (Retrieval.learn n).run call w = (.ok (), w') := by
  refine ⟨_, Prod.ext ?_ rfl⟩
  rw [Retrieval.run_learn, Workspace.learn]
  dsimp only
  rw [checkNogood_succeeds hne h]
  rfl

/-- A submission about the output of a tuple, once the other atoms are stored. -/
def submitOutput (member other : Symbol) (t : Tuple) : Retrieval Unit := do
  let notOutput ← .negate (← .outputAtom t)
  .learn (.ofList [member, other.flip, notOutput])

include hw hpn hp hsn hs in
theorem learnOutput_prepares (hargs : ∀ arg ∈ t, w.table.Usable arg)
    (hb : ((learnOutput p s t).run call w).2.table.size ≤ 2 ^ 31) :
    ∃ member other w₃, Reaches w.table w₃.table ∧ WellFormed w₃.table ∧
      (w₃.table.isAtom member).1 = true ∧ (w₃.table.isAtom other).1 = true ∧
      (learnOutput p s t).run call w = (submitOutput member other t).run call w₃ := by
  -- what is stored at one step is usable and known at the later ones
  obtain ⟨member, w₁, h₁⟩ := atom_run_succeeds call hpn hp hargs
  rw [learnOutput, Retrieval.run_bind_of_ok _ h₁] at hb ⊢
  have hr₁ := Retrieval.reaches_of_run _ h₁
  obtain ⟨other, w₂, h₂⟩ := atom_run_succeeds call hsn
    (hr₁.toExtends.isPredicateConstant hs) fun arg ha => (hargs arg ha).extend hr₁.toExtends
  rw [Retrieval.run_bind_of_ok _ h₂] at hb ⊢
  have hr₂ := Retrieval.reaches_of_run _ h₂
  have hle₂ := Nat.le_trans (Retrieval.run_reaches call _ w₂).size_le hb
  have hle₁ := Nat.le_trans hr₂.size_le hle₂
  have hw₁ := hw.reaches hr₁ hle₁
  have hmember := (atom_run_ok hw h₁ hle₁).1
  have hother := (atom_run_ok hw₁ h₂ hle₂).1
  obtain ⟨w₃, h₃⟩ := negate_run_succeeds call hother.2.1.isAtom
  rw [Retrieval.run_bind_of_ok _ h₃] at hb ⊢
  have hr₃ := Retrieval.reaches_of_run _ h₃
  have hle₃ := Nat.le_trans (Retrieval.run_reaches call _ w₃).size_le hb
  exact ⟨member, other, w₃, (hr₁.trans hr₂).trans hr₃, (hw₁.reaches hr₂ hle₂).reaches hr₃ hle₃,
    (hr₂.toExtends.trans hr₃.toExtends).isAtom hmember.2.1.isAtom,
    hr₃.toExtends.isAtom hother.2.1.isAtom, rfl⟩

include hw hpn hp hsn hs hname in
theorem learnOutput_succeeds (ht : call.Storable w.table t)
    (hb : ((learnOutput p s t).run call w).2.table.size ≤ 2 ^ 31) :
    ∃ w', (learnOutput p s t).run call w = (.ok (), w') := by
  obtain ⟨member, other, w₃, hr₃, hw₃, hmember, hother, hrun⟩ := learnOutput_prepares hw hpn hp hsn
    hs (fun arg ha => ht.2 arg (List.mem_append_right _ ha)) hb
  rw [hrun, submitOutput] at hb ⊢
  obtain ⟨output, w₄, h₄⟩ := outputAtom_run_succeeds (ht.extend hr₃.toExtends)
  rw [Retrieval.run_bind_of_ok _ h₄] at hb ⊢
  have hr₄ := Retrieval.reaches_of_run _ h₄
  have hle₄ := Nat.le_trans (Retrieval.run_reaches call _ w₄).size_le hb
  have houtput := (outputAtom_run_ok hw₃ h₄ hle₄).1.isAtom hname
  obtain ⟨w₅, h₅⟩ := negate_run_succeeds call houtput
  rw [Retrieval.run_bind_of_ok _ h₅]
  have hr₅ := Retrieval.reaches_of_run _ h₅
  refine learn_run_succeeds ?_ fun l hl => ?_
  · exact List.ne_nil_of_mem (Nogood.mem_ofList.mpr List.mem_cons_self)
  · simp only [Nogood.mem_ofList, List.mem_cons, List.not_mem_nil, or_false] at hl
    rcases hl with rfl | rfl | rfl
    · exact (hr₄.trans hr₅).toExtends.isAtom hmember
    · rw [isAtom_flip]
      exact (hr₄.trans hr₅).toExtends.isAtom hother
    · rw [isAtom_flip]
      exact hr₅.toExtends.isAtom houtput

include hw hpn hp hsn hs in
theorem learnOutput_refused (hargs : ∀ arg ∈ t, w.table.Usable arg)
    (hlength : t.length ≠ call.signature.outputArity)
    (hb : ((learnOutput p s t).run call w).2.table.size ≤ 2 ^ 31) :
    ((learnOutput p s t).run call w).1 = .error (.store (.malformedTuple
      (.outputLength t.length call.signature.predicate call.signature.outputArity))) := by
  obtain ⟨member, other, w₃, -, -, -, -, hrun⟩ :=
    learnOutput_prepares hw hpn hp hsn hs hargs hb
  rw [hrun, submitOutput, Retrieval.run_bind, Retrieval.run_outputAtom, Invocation.storeOutputAtom,
    if_neg hlength]
  rfl

include hw hpn hp hsn hs hname in
theorem learnOutputs_cons {rest : List Tuple} (ht : call.Storable w.table t)
    (hb : (((t :: rest).forM (learnOutput p s)).run call w).2.table.size ≤ 2 ^ 31) :
    ∃ w₁, Extends w.table w₁.table ∧ WellFormed w₁.table ∧
      ((t :: rest).forM (learnOutput p s)).run call w =
        (rest.forM (learnOutput p s)).run call w₁ := by
  rw [Retrieval.forM_cons] at hb ⊢
  have hfirst := Nat.le_trans (Retrieval.run_bind_reaches call (learnOutput p s t)
    (fun _ => rest.forM (learnOutput p s)) w).size_le hb
  obtain ⟨w₁, h₁⟩ := learnOutput_succeeds hw hpn hp hsn hs hname ht hfirst
  have hr₁ := Retrieval.reaches_of_run _ h₁
  rw [h₁] at hfirst
  exact ⟨w₁, hr₁.toExtends, hw.reaches hr₁ hfirst, Retrieval.run_bind_of_ok _ h₁⟩

include hw hpn hp hsn hs hname in
theorem learnOutputs_succeed {tuples : List Tuple} (ht : ∀ t ∈ tuples, call.Storable w.table t)
    (hb : ((tuples.forM (learnOutput p s)).run call w).2.table.size ≤ 2 ^ 31) :
    ∃ w', (tuples.forM (learnOutput p s)).run call w = (.ok (), w') := by
  induction tuples generalizing w with
  | nil => exact ⟨w, rfl⟩
  | cons t rest ih =>
    obtain ⟨w₁, hl₁, hw₁, hrun⟩ :=
      learnOutputs_cons hw hpn hp hsn hs hname (ht t List.mem_cons_self) hb
    rw [hrun] at hb ⊢
    exact ih hw₁ (hl₁.isPredicateConstant hp) (hl₁.isPredicateConstant hs)
      (fun t' ht' => (ht t' (List.mem_cons_of_mem _ ht')).extend hl₁) hb

include hw hpn hp hsn hs hname in
theorem learnOutputs_refused {tuples : List Tuple}
    (husable : ∀ t ∈ tuples, ∀ arg ∈ call.input ++ t, w.table.Usable arg)
    (hlength : ∃ t ∈ tuples, t.length ≠ call.signature.outputArity)
    (hb : ((tuples.forM (learnOutput p s)).run call w).2.table.size ≤ 2 ^ 31) :
    ∃ t ∈ tuples, t.length ≠ call.signature.outputArity ∧
      ((tuples.forM (learnOutput p s)).run call w).1 = .error (.store (.malformedTuple
        (.outputLength t.length call.signature.predicate call.signature.outputArity))) := by
  induction tuples generalizing w with
  | nil => simp at hlength
  | cons t rest ih =>
    have ht := husable t List.mem_cons_self
    by_cases hgood : t.length = call.signature.outputArity
    · obtain ⟨w₁, hl₁, hw₁, hrun⟩ := learnOutputs_cons hw hpn hp hsn hs hname ⟨hgood, ht⟩ hb
      rw [hrun] at hb ⊢
      obtain ⟨t', ht', hbad, hrefused⟩ := ih hw₁ (hl₁.isPredicateConstant hp)
        (hl₁.isPredicateConstant hs)
        (fun t' ht' arg ha => (husable t' (List.mem_cons_of_mem _ ht') arg ha).extend hl₁)
        (by simpa [hgood] using hlength) hb
      exact ⟨t', List.mem_cons_of_mem _ ht', hbad, hrefused⟩
    · -- the loop stops here, whatever the other tuples are
      rw [Retrieval.forM_cons] at hb
      have hfirst := Nat.le_trans (Retrieval.run_bind_reaches call (learnOutput p s t)
        (fun _ => rest.forM (learnOutput p s)) w).size_le hb
      have hrefused := learnOutput_refused hw hpn hp hsn hs
        (fun arg ha => ht arg (List.mem_append_right _ ha)) hgood hfirst
      refine ⟨t, List.mem_cons_self, hgood, ?_⟩
      rw [Retrieval.forM_cons, Retrieval.run_bind, show (learnOutput p s t).run call w = (_, _) from
        Prod.ext hrefused rfl]

end Success

/-- The tuple is in the first extension and not in the second. -/
def Remains (i : Interpretation) (p s : Symbol) (t : Tuple) : Prop :=
  t ∈ i.extension p ∧ t ∉ i.extension s

/-- The answer that all three forms give. -/
def remainder (i : Interpretation) (p s : Symbol) : Answer :=
  .ofTuples (difference (i.extension p) (i.extension s))

section Ask
variable {i : Interpretation} {table : SymbolTable} {q : Query}

theorem mem_remainder : t ∈ (remainder i p s).trueTuples ↔ Remains i p s t := by
  rw [remainder, Answer.mem_ofTuples, mem_difference, Remains]

section Run
variable (hp : q.arg? 0 = some p) (hs : q.arg? 1 = some s)
include hp hs

theorem setMinus_run (call : Invocation) (w : Workspace) :
    (setMinus q).run call w = (.ok (remainder q.interpretation p s), w) := by
  rw [setMinus, Retrieval.run_bind_of_ok _ (inputArgument_ok.mpr ⟨hp, rfl⟩),
    Retrieval.run_bind_of_ok _ (inputArgument_ok.mpr ⟨hs, rfl⟩)]
  rfl

theorem setMinusTrueAtoms_run (call : Invocation) (hi : q.interpretation.Snapshot w.table) :
    (setMinusTrueAtoms q).run call w = (.ok (remainder q.interpretation p s), w) := by
  have hheads : ∀ b ∈ q.interpretation.trueAtoms, ∃ p, w.table.HeadOf b p := by
    intro b hb
    exact (hi.headed b _ ((Interpretation.mem_trueAtoms hi).mp hb)).2
  obtain ⟨found, hrun, hfirst, hsecond⟩ := @gather_ok call w p s _ hheads
  have hextension : ∀ (head : Symbol) (tuples : TupleSet), (∀ x, x ∈ tuples ↔
      ∃ b ∈ q.interpretation.trueAtoms, w.table.HeadOf b head ∧ w.table.arguments b = x) →
        tuples = q.interpretation.extension head := by
    intro head tuples htuples
    refine Std.ExtTreeSet.ext_mem fun x => ?_
    simp only [htuples, hi.mem_extension, Interpretation.mem_trueAtoms hi]
  rw [setMinusTrueAtoms, Retrieval.run_bind_of_ok _ (inputArgument_ok.mpr ⟨hp, rfl⟩),
    Retrieval.run_bind_of_ok _ (inputArgument_ok.mpr ⟨hs, rfl⟩), Retrieval.run_bind_of_ok _ hrun,
    Retrieval.run_pure, hextension p _ hfirst, hextension s _ hsecond, remainder]

theorem setMinusLearn_reaches (call : Invocation) (w : Workspace) :
    Reaches
      (((difference (q.extension p) (q.extension s)).forM (learnOutput p s)).run call w).2.table
      ((setMinusLearn q).run call w).2.table := by
  rw [setMinusLearn, Retrieval.run_bind_of_ok _ (inputArgument_ok.mpr ⟨hp, rfl⟩),
    Retrieval.run_bind_of_ok _ (inputArgument_ok.mpr ⟨hs, rfl⟩)]
  exact Retrieval.run_bind_reaches call _ _ w

theorem setMinusLearn_run_ok {given : Answer} :
    (setMinusLearn q).run call w = (.ok given, w') ↔ given = remainder q.interpretation p s ∧
      ((difference (q.extension p) (q.extension s)).forM (learnOutput p s)).run call w =
        (.ok (), w') := by
  constructor
  · intro h
    obtain ⟨p', s', hp', hs', hgiven, hlearned⟩ := setMinusLearn_ok h
    obtain rfl := Option.some.inj (hp.symm.trans hp')
    obtain rfl := Option.some.inj (hs.symm.trans hs')
    exact ⟨hgiven, hlearned⟩
  · rintro ⟨rfl, hlearned⟩
    rw [setMinusLearn, Retrieval.run_bind_of_ok _ (inputArgument_ok.mpr ⟨hp, rfl⟩),
      Retrieval.run_bind_of_ok _ (inputArgument_ok.mpr ⟨hs, rfl⟩),
      Retrieval.run_bind_of_ok _ hlearned]
    rfl

end Run

end Ask

/-- The members of an extension are positive and known from the start. -/
theorem usable_of_remains {i : Interpretation} {table : SymbolTable} (hi : i.BuiltOn table)
    (ht : Remains i p s t) : ∀ x ∈ t, table.Usable x := by
  intro x hx
  obtain ⟨b, -, -, rfl⟩ := (hi.snapshot.mem_extension p t).mp ht.1
  exact hi.reached.admits.usable_arguments hx

theorem setMinusLearn_succeeds_iff {signature : Signature} {q : Query} {table : SymbolTable}
    (hi : q.interpretation.BuiltOn table) (hinput : signature.checkInput table q.input = .ok ())
    (hname : Text.isIdentifier signature.predicate = true) (hq₀ : q.arg? 0 = some p)
    (hq₁ : q.arg? 1 = some s) (hpn : p.isNegated = false)
    (hp : table.isPredicateConstant p = true) (hsn : s.isNegated = false)
    (hs : table.isPredicateConstant s = true)
    (hb : ((setMinusLearn q).run ⟨signature, q.input⟩ (.ofTable table)).2.table.size ≤ 2 ^ 31) :
    (∃ given w', (setMinusLearn q).run ⟨signature, q.input⟩ (.ofTable table) = (.ok given, w')) ↔
      ∀ t, Remains q.interpretation p s t → t.length = signature.outputArity := by
  have hw : WellFormed table := hi.reached.wellFormed
    (Nat.le_trans ((setMinusLearn q).run_reaches ⟨signature, q.input⟩ (.ofTable table)).size_le hb)
  constructor
  · rintro ⟨given, w', hrun⟩ t ht
    rw [hrun] at hb
    obtain ⟨-, hlearned⟩ := (setMinusLearn_run_ok hq₀ hq₁).mp hrun
    obtain ⟨n, -, member, other, output, -, -, houtput, -⟩ :=
      excludes_of_learnOutputs hw hlearned hb (mem_difference.mpr ht)
    exact houtput.1
  · intro hall
    -- every tuple has its output atom stored, so every submission succeeds
    have hstorable : ∀ t ∈ difference (q.extension p) (q.extension s),
        Invocation.Storable ⟨signature, q.input⟩ table t := by
      intro t ht
      have hremains : Remains q.interpretation p s t := mem_difference.mp ht
      refine ⟨hall t hremains, fun arg harg => ?_⟩
      rcases List.mem_append.mp harg with harg | harg
      · exact Signature.usable_of_checkInput hinput arg harg
      · exact usable_of_remains hi hremains arg harg
    have hreaches := setMinusLearn_reaches hq₀ hq₁ ⟨signature, q.input⟩ (.ofTable table)
    obtain ⟨w', hrun⟩ := @learnOutputs_succeed ⟨signature, q.input⟩ p s (.ofTable table) hw hpn hp
      hsn hs hname _ hstorable (Nat.le_trans hreaches.size_le hb)
    exact ⟨_, w', (setMinusLearn_run_ok hq₀ hq₁).mpr ⟨rfl, hrun⟩⟩

section Evaluate
variable {ev : Evaluator} {i : Interpretation} {table : SymbolTable}
  (hload : ev.registry.Loads testPlugin) (hi : i.BuiltOn table)
  (hpn : p.isNegated = false) (hp : table.isPredicateConstant p = true)
  (hsn : s.isNegated = false) (hs : table.isPredicateConstant s = true)

def differenceNames : List String := ["testSetMinus", "testSetMinusTrueAtoms", "testSetMinusLearn"]

/-- What a difference makes of a call: it fails on a tuple of another length, and else presents what
remains of the first extension. -/
structure Subtracts (ev : Evaluator) (name : String) (p s : Symbol) (i : Interpretation)
    (table : SymbolTable) : Prop where
  succeeds_iff : (∃ e, (ev.evaluate name [p, s] i table).result = .ok e) ↔
    ∀ t, Remains i p s t → t.length = 1
  presents : ∀ e, (ev.evaluate name [p, s] i table).result = .ok e →
    e.answer = remainder i p s ∧ e.provisional = i.isPartial

include hpn hp hsn hs in
theorem checkInput_predicates {signature : Signature}
    (hinputs : signature.inputs = [.predicate, .predicate]) :
    signature.checkInput table [p, s] = .ok () := by
  have hknown : ∀ {c : Symbol}, table.isPredicateConstant c = true → table.isKnown c = true := by
    intro c hc
    unfold isPredicateConstant at hc
    split at hc
    · next name hr => exact isKnown_iff.mpr ⟨_, hr⟩
    · simp at hc
  simp [Signature.checkInput, Signature.checkArguments, Signature.acceptsLength,
    Signature.hasTupleInput, Signature.acceptsArgument, hinputs, hpn, hp, hsn, hs, hknown hp,
    hknown hs]

include hi hpn hp hsn hs in
theorem subtracts_of_ask {name : String} {a : ExternalAtom}
    (hatom : ev.registry.find? name = some a)
    (hinputs : a.signature.inputs = [.predicate, .predicate])
    (hoff : a.signature.properties.partialAnswers = false) (harity : a.signature.outputArity = 1)
    (hask : (a.ask ⟨[p, s], i⟩ table).1 = .ok (remainder i p s)) :
    Subtracts ev name p s i table := by
  have hl := (a.ask_reaches ⟨[p, s], i⟩ table).toExtends
  obtain ⟨hsucceeds, hpresents⟩ := Evaluator.evaluate_of_given hatom
    (checkInput_predicates hpn hp hsn hs hinputs) hask (Answer.unknownTuples_ofTuples _)
    fun t ht x hx => (usable_of_remains hi (mem_remainder.mp ht) x hx).extend hl
  constructor
  · rw [hsucceeds, harity]
    simp only [mem_remainder]
  · intro e he
    obtain ⟨hanswer, hprovisional⟩ := hpresents e he
    rw [hprovisional, hoff]
    exact ⟨hanswer, by simp⟩

include hi hpn hp hsn hs in
theorem setMinusLearn_subtracts {name : String} {a : ExternalAtom}
    (hatom : ev.registry.find? name = some a) (hr : a.retrieve = setMinusLearn)
    (hname : Text.isIdentifier a.predicate = true)
    (hinputs : a.signature.inputs = [.predicate, .predicate])
    (hoff : a.signature.properties.partialAnswers = false) (harity : a.signature.outputArity = 1)
    (hb : (ev.evaluate name [p, s] i table).table.size ≤ 2 ^ 31) :
    Subtracts ev name p s i table := by
  have hinput := checkInput_predicates hpn hp hsn hs hinputs
  rw [Evaluator.evaluate_table, Evaluator.attempt, hatom] at hb
  replace hb : (a.ask ⟨[p, s], i⟩ table).2.table.size ≤ 2 ^ 31 :=
    Nat.le_trans (a.attempt_reaches_of_input ev.settings hinput).size_le hb
  rw [ExternalAtom.ask, hr] at hb
  have hanswers := setMinusLearn_succeeds_iff hi hinput hname rfl rfl hpn hp hsn hs hb
  rw [harity] at hanswers
  by_cases hall : ∀ t, Remains i p s t → t.length = 1
  · obtain ⟨given, w', hrun⟩ := hanswers.mpr hall
    obtain ⟨rfl, -⟩ := (setMinusLearn_run_ok rfl rfl).mp hrun
    refine subtracts_of_ask hi hpn hp hsn hs hatom hinputs hoff harity ?_
    rw [ExternalAtom.ask, hr, hrun]
  · have hfails : ∀ e, (ev.evaluate name [p, s] i table).result ≠ .ok e := by
      intro e he
      obtain ⟨draft, hd⟩ := (Evaluator.evaluate_succeeds_iff hatom).mp ⟨e, he⟩
      obtain ⟨given, -, -, hgiven, -⟩ := ExternalAtom.attempt_ok hd
      rw [ExternalAtom.ask, hr] at hgiven
      exact hall (hanswers.mp ⟨given, _, Prod.ext hgiven rfl⟩)
    exact ⟨iff_of_false (not_exists.mpr hfails) hall, fun e he => absurd he (hfails e)⟩

include hload hi hpn hp hsn hs in
theorem subtracts_of_mem (hb : (ev.evaluate "testSetMinusLearn" [p, s] i table).table.size ≤ 2 ^ 31)
    {name : String} (hname : name ∈ differenceNames) : Subtracts ev name p s i table := by
  simp only [differenceNames, List.mem_cons, List.not_mem_nil, or_false] at hname
  rcases hname with rfl | rfl | rfl
  · have hatom := hload ⟨⟨"testSetMinus", [.predicate, .predicate], 1,
      { monotonic := [0], antimonotonic := [1] }⟩, setMinus⟩ (by simp [testPlugin])
    exact subtracts_of_ask hi hpn hp hsn hs hatom rfl rfl rfl
      (congrArg Prod.fst (setMinus_run rfl rfl _ _))
  · have hatom := hload ⟨⟨"testSetMinusTrueAtoms", [.predicate, .predicate], 1, {}⟩,
      setMinusTrueAtoms⟩ (by simp [testPlugin])
    exact subtracts_of_ask hi hpn hp hsn hs hatom rfl rfl rfl
      (congrArg Prod.fst (setMinusTrueAtoms_run rfl rfl _ hi.snapshot))
  · have hatom := hload ⟨⟨"testSetMinusLearn", [.predicate, .predicate], 1,
      { learning := false }⟩, setMinusLearn⟩ (by simp [testPlugin])
    have hidentifier : Text.isIdentifier "testSetMinusLearn" = true := by decide
    exact setMinusLearn_subtracts hi hpn hp hsn hs hatom rfl hidentifier rfl rfl rfl hb

include hload hi hpn hp hsn hs in
/-- The three forms of the difference fail together, on a tuple of another length than one, and
otherwise give the same answer and the same values. -/
theorem differences_agree
    (hb : (ev.evaluate "testSetMinusLearn" [p, s] i table).table.size ≤ 2 ^ 31) :
    (∀ name ∈ differenceNames,
      (∃ fault, (ev.evaluate name [p, s] i table).result = .error fault) ↔
        ∃ t, (t ∈ i.extension p ∧ t ∉ i.extension s) ∧ t.length ≠ 1) ∧
    ∀ name ∈ differenceNames, ∀ e, (ev.evaluate name [p, s] i table).result = .ok e →
      (∀ t, t ∈ e.answer.trueTuples ↔ t ∈ i.extension p ∧ t ∉ i.extension s) ∧
      e.answer.unknownTuples = ∅ ∧
      ∀ name' ∈ differenceNames, ∃ e', (ev.evaluate name' [p, s] i table).result = .ok e' ∧
        e'.answer = e.answer ∧ ∀ t, e'.truthOf t = e.truthOf t := by
  have hall : ∀ name ∈ differenceNames, Subtracts ev name p s i table :=
    fun name hname => subtracts_of_mem hload hi hpn hp hsn hs hb hname
  constructor
  · intro name hname
    rw [exists_error_iff, (hall name hname).succeeds_iff]
    simp only [Remains, not_forall, exists_prop]
  · intro name hname e he
    obtain ⟨hanswer, hprovisional⟩ := (hall name hname).presents e he
    refine ⟨fun t => ?_, ?_, fun name' hname' => ?_⟩
    · rw [hanswer, mem_remainder, Remains]
    · rw [hanswer, remainder, Answer.unknownTuples_ofTuples]
    · have hlengths := (hall name hname).succeeds_iff.mp ⟨e, he⟩
      obtain ⟨e', he'⟩ := (hall name' hname').succeeds_iff.mpr hlengths
      obtain ⟨hanswer', hprovisional'⟩ := (hall name' hname').presents e' he'
      have hsame : e'.answer = e.answer := hanswer'.trans hanswer.symm
      have hstatus : e'.provisional = e.provisional := hprovisional'.trans hprovisional.symm
      refine ⟨e', he', hsame, fun t => ?_⟩
      rw [Evaluation.truthOf, Evaluation.truthOf, hsame, hstatus]

end Evaluate

/-- Two tuples remain, and the form that submits nogoods presents them too. -/
theorem differences_agree_threeAtoms :
    ∃ e e', (tester.evaluate "testSetMinus" [⟨0⟩, ⟨2⟩] (leftWhen .true) threeAtoms).result = .ok e ∧
      (tester.evaluate "testSetMinusLearn" [⟨0⟩, ⟨2⟩] (leftWhen .true) threeAtoms).result = .ok e' ∧
      e'.answer = e.answer ∧ [⟨4⟩] ∈ e.answer.trueTuples ∧ [⟨6⟩] ∈ e.answer.trueTuples := by
  have hb : (tester.evaluate "testSetMinusLearn" [⟨0⟩, ⟨2⟩] (leftWhen .true)
    threeAtoms).table.size ≤ 2 ^ 31 := by decide +kernel
  obtain ⟨e, he⟩ : ∃ e, (tester.evaluate "testSetMinus" [⟨0⟩, ⟨2⟩] (leftWhen .true)
    threeAtoms).result = .ok e := ⟨_, rfl⟩
  obtain ⟨-, hsucceeds⟩ :=
    differences_agree tester_loads (leftWhen_builtOn .true) rfl rfl rfl rfl hb
  obtain ⟨hmem, -, hall⟩ := hsucceeds "testSetMinus" (by simp [differenceNames]) e he
  obtain ⟨e', he', hsame, -⟩ := hall "testSetMinusLearn" (by simp [differenceNames])
  exact ⟨e, e', he, he', hsame, (hmem _).mpr (by decide), (hmem _).mpr (by decide)⟩

end Bundled

end ExternalAtoms
