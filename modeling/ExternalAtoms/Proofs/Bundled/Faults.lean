import ExternalAtoms.Proofs.Bundled.Uniformity
import ExternalAtoms.Proofs.Evaluation.Presentation

/-! # Why the bundled atoms fail

Once its input is accepted, a bundled atom fails for a few reasons only, and says which: an input is
no integer, a predicate is not unary, or a tuple of a difference cannot be an output. Everything
else that could fail on the way does not: the arguments are there and can be read, what is stored is
made of stored symbols, and what is submitted consists of atoms.
-/
namespace ExternalAtoms
open SymbolTable Sample

theorem SymbolTable.integer?_eq_some_iff {table : SymbolTable} {s : Symbol} {value : Int64} :
    table.integer? s = some value ↔ table.resolve? s = some (.integer value) := by
  unfold integer?
  split
  · next stored hr => simp [hr]
  · next hother => simpa using fun hr => hother value hr

theorem SymbolTable.WellFormed.usable_of_finds {table : SymbolTable} (hw : WellFormed table)
    {s : Symbol} {c : Content} (h : table.Finds s c) : table.Usable s := by
  obtain ⟨t, -, hs⟩ := h
  obtain ⟨hpositive, hr⟩ := hw.handles_iff.mp hs
  exact ⟨hpositive, isKnown_iff.mpr ⟨t, hr⟩⟩

theorem Retrieval.run_bind_of_error {α β : Type} (call : Invocation) {program : Retrieval α}
    {k : α → Retrieval β} {w : Workspace} {f : EvaluationError}
    (h : (program.run call w).1 = .error f) : ((program >>= k).run call w).1 = .error f := by
  rw [run_bind, show program.run call w = (_, _) from Prod.ext h rfl]

namespace Bundled

/-- The inputs that an atom reads as integers. -/
def integerInputs : String → List Nat
  | "substr" | "numberOfBalls" => [1, 2]
  | "testSmallerThan" => [0, 1]
  | _ => []

/-- The atoms that answer every input that they accept. -/
def unfailing : List String := ["concat", "strlen", "testConcat", "idc", "isEmpty"]

/-- Why a bundled atom that has accepted its input fails, with the error that says so. -/
inductive Fault (table : SymbolTable) (i : Interpretation) (name : String) (input : List Symbol) :
    EvaluationError → Prop
  | notInteger {k : Nat} {s : Symbol} (hk : k ∈ integerInputs name) (hs : input[k]? = some s)
      (hother : ∀ value, table.resolve? s ≠ some (.integer value)) :
      Fault table i name input (.plugin name ("input " ++ Nat.repr k ++ " must be an integer"))
  | notUnary {p b : Symbol} (hname : name = "id") (hp : input[0]? = some p)
      (hb : i.truths[b]? = some .true) (hhead : table.HeadedBy b p)
      (hlength : (table.arguments b).length ≠ 1) :
      Fault table i name input (.plugin "id" "only predicates of arity 1 are supported")
  | answerLength {p s : Symbol} {t : Tuple}
      (hname : name = "testSetMinus" ∨ name = "testSetMinusTrueAtoms")
      (hp : input[0]? = some p) (hs : input[1]? = some s)
      (ht : t ∈ i.extension p ∧ t ∉ i.extension s) (hlength : t.length ≠ 1) :
      Fault table i name input (.outputArity name 1 t.length)
  | atomLength {p s : Symbol} {t : Tuple} (hname : name = "testSetMinusLearn")
      (hp : input[0]? = some p) (hs : input[1]? = some s)
      (ht : t ∈ i.extension p ∧ t ∉ i.extension s) (hlength : t.length ≠ 1) :
      Fault table i name input (.store (.malformedTuple (.outputLength t.length name 1)))

/-- Errors about an argument that is missing, a symbol that is unknown or no literal, and an answer
that may not be undecided. -/
inductive Internal : EvaluationError → Prop
  | missingInput (name rest : String) : Internal (.plugin name ("missing input" ++ rest))
  | unknownSymbol (index : Nat) : Internal (.store (.unknownSymbol index))
  | notALiteral (symbol : String) : Internal (.store (.notALiteral symbol))
  | negatedArgument (symbol : String) :
      Internal (.store (.malformedTuple (.negatedArgument symbol)))
  | unexpectedUnknown (name : String) : Internal (.unexpectedUnknown name)

/-- The call fails for a reason that applies, or it succeeds and none does. -/
def Judged (ev : Evaluator) (a : ExternalAtom) (input : List Symbol) (i : Interpretation)
    (table : SymbolTable) : Prop :=
  (∃ f, (ev.evaluate a.predicate input i table).result = .error f ∧
      Fault table i a.predicate input f) ∨
    (∃ e, (ev.evaluate a.predicate input i table).result = .ok e) ∧
      ∀ f, ¬Fault table i a.predicate input f

section Reasons
variable {table : SymbolTable} {i : Interpretation} {name : String} {input : List Symbol}
  {f : EvaluationError}

theorem Fault.not_internal (h : Fault table i name input f) : ¬Internal f := by
  intro hinternal
  cases hinternal with
  | missingInput name' rest =>
    generalize hmessage : "missing input" ++ rest = message at h
    have hfirst : message.toList.head? = some 'm' := by
      rw [← hmessage, String.toList_append]
      rfl
    cases h with
    | notInteger =>
      simp [String.toList_append] at hfirst
    | notUnary => exact absurd hfirst (by decide)
  | unknownSymbol => cases h
  | notALiteral => cases h
  | negatedArgument => cases h
  | unexpectedUnknown => cases h

theorem not_fault_of_integers (hid : name ≠ "id") (hdifference : name ∉ differenceNames)
    (h : ∀ k ∈ integerInputs name, ∃ value, input[k]?.bind table.integer? = some value)
    (f : EvaluationError) : ¬Fault table i name input f := by
  intro hf
  cases hf with
  | notInteger hk hs hother =>
    obtain ⟨value, hvalue⟩ := h _ hk
    rw [hs, Option.bind_some, integer?_eq_some_iff] at hvalue
    exact hother value hvalue
  | notUnary hname => exact hid hname
  | answerLength hname => rcases hname with rfl | rfl <;> simp [differenceNames] at hdifference
  | atomLength hname => simp [hname, differenceNames] at hdifference

theorem not_fault_of_unfailing (hname : name ∈ unfailing) (f : EvaluationError) :
    ¬Fault table i name input f := by
  simp only [unfailing, List.mem_cons, List.not_mem_nil, or_false] at hname
  rcases hname with rfl | rfl | rfl | rfl | rfl <;>
    exact not_fault_of_integers (by decide) (by decide) (by simp [integerInputs]) f

theorem not_fault_of_unary (hname : name = "id") {p : Symbol} (hp : input[0]? = some p)
    (hunary : ∀ b, i.truths[b]? = some .true → table.HeadedBy b p →
      (table.arguments b).length = 1) (f : EvaluationError) : ¬Fault table i name input f := by
  intro hf
  cases hf with
  | notInteger hk => simp [hname, integerInputs] at hk
  | @notUnary p' b _ hp' hb hhead hlength =>
    obtain rfl := Option.some.inj (hp.symm.trans hp')
    exact hlength (hunary b hb hhead)
  | answerLength hother => simp [hname] at hother
  | atomLength hother => simp [hname] at hother

theorem not_fault_of_lengths (hname : name ∈ differenceNames) {p s : Symbol}
    (hp : input[0]? = some p) (hs : input[1]? = some s)
    (hlengths : ∀ t, Remains i p s t → t.length = 1) (f : EvaluationError) :
    ¬Fault table i name input f := by
  have hunary : ∀ {p' s' : Symbol} {t : Tuple}, input[0]? = some p' → input[1]? = some s' →
      t ∈ i.extension p' ∧ t ∉ i.extension s' → t.length = 1 := by
    intro p' s' t hp' hs' ht
    obtain rfl := Option.some.inj (hp.symm.trans hp')
    obtain rfl := Option.some.inj (hs.symm.trans hs')
    exact hlengths t ht
  intro hf
  cases hf with
  | notInteger hk =>
    simp only [differenceNames, List.mem_cons, List.not_mem_nil, or_false] at hname
    rcases hname with rfl | rfl | rfl <;> simp [integerInputs] at hk
  | notUnary hother => simp [hother, differenceNames] at hname
  | answerLength _ hp' hs' ht hlength => exact hlength (hunary hp' hs' ht)
  | atomLength _ hp' hs' ht hlength => exact hlength (hunary hp' hs' ht)

end Reasons

section Answers
variable {signature : Signature} {table : SymbolTable}

theorem presentable_verdict {v : Truth} (harity : signature.outputArity = 0)
    (hv : v ≠ .unknown ∨ signature.properties.partialAnswers = true) :
    (verdict v).Presentable signature table := by
  have honly : ∀ t, t ∈ (verdict v).trueTuples ∨ t ∈ (verdict v).unknownTuples → t = [] := by
    simp only [mem_verdict, mem_unknown_verdict]
    rintro t (⟨-, rfl⟩ | ⟨-, rfl⟩) <;> rfl
  refine ⟨fun t ht => ?_, fun t ht => ?_, hv.imp_left fun hsettled => ?_⟩
  · rw [honly t ht, harity, List.length_nil]
  · rw [honly t ht]
    exact fun s hs => absurd hs List.not_mem_nil
  · exact Std.ExtTreeSet.ext_mem fun t => by simp [mem_unknown_verdict, hsettled]

theorem presentable_remainder {i : Interpretation} {p s : Symbol}
    (hlengths : ∀ t, Remains i p s t → t.length = 1) (hi : i.BuiltOn table)
    (harity : signature.outputArity = 1) {later : SymbolTable} (hl : Extends table later) :
    (remainder i p s).Presentable signature later := by
  refine Answer.presentable_ofTuples (fun t ht => ?_) fun t ht x hx => ?_
  · rw [harity]
    exact hlengths t (mem_difference.mp ht)
  · exact (usable_of_remains hi (mem_difference.mp ht) x hx).extend hl

end Answers

section Reading

theorem operand_succeeds {table : SymbolTable} (hw : WellFormed table) {s : Symbol}
    (hs : table.Usable s) : ∃ o, operand table s = .ok o := by
  obtain ⟨tree, htree⟩ := hw.tree_ok hs.2
  exact ⟨_, by rw [operand, render, htree]; rfl⟩

theorem storeText_succeeds (call : Invocation) (w : Workspace) (text : String) (quoted : Bool) :
    ∃ s w', (storeText text quoted).run call w = (.ok s, w') := by
  cases quoted <;> exact ⟨_, _, rfl⟩

theorem integerArgument_cases (q : Query) (k : Nat) (name : String) (call : Invocation)
    (w : Workspace) :
    ((q.arg? k).bind w.table.integer? = none ∧ (integerArgument q k name).run call w =
      (.error (.plugin name ("input " ++ Nat.repr k ++ " must be an integer")), w)) ∨
    ∃ value, (q.arg? k).bind w.table.integer? = some value ∧
      (integerArgument q k name).run call w = (.ok value, w) := by
  simp only [integerArgument, Retrieval.run_bind, Retrieval.run_read]
  cases (q.arg? k).bind w.table.integer? with
  | none => exact Or.inl ⟨rfl, rfl⟩
  | some value => exact Or.inr ⟨value, rfl, rfl⟩

end Reading

section Judge
variable {ev : Evaluator} {a : ExternalAtom} {input : List Symbol} {i : Interpretation}
  {table : SymbolTable} (h : ev.Asks a input i table)
include h

theorem judged_of_fault {f : EvaluationError}
    (hrun : ((a.retrieve ⟨input, i⟩).run ⟨a.signature, input⟩ (.ofTable table)).1 = .error f)
    (hf : Fault table i a.predicate input f) : Judged ev a input i table :=
  Or.inl ⟨f, h.result_of_error hrun, hf⟩

theorem judged_of_answer {given : Answer} {w : Workspace}
    (hrun : (a.retrieve ⟨input, i⟩).run ⟨a.signature, input⟩ (.ofTable table) = (.ok given, w))
    (hgiven : WellFormed w.table → Extends table w.table → given.Presentable a.signature w.table)
    (hnone : ∀ f, ¬Fault table i a.predicate input f) : Judged ev a input i table := by
  have hask : a.ask ⟨input, i⟩ table = (.ok given, w) := hrun
  obtain rfl : (a.ask ⟨input, i⟩ table).2 = w := congrArg Prod.snd hask
  have hpresentable := hgiven h.asked_wellFormed (a.ask_reaches ⟨input, i⟩ table).toExtends
  exact Or.inr ⟨h.succeeds_of_presentable (congrArg Prod.fst hask) hpresentable, hnone⟩

theorem integerArgument_judged {name : String} (hname : a.predicate = name)
    (htuple : a.signature.hasTupleInput = false) {k : Nat} (hk : k ∈ integerInputs name)
    (hinside : k < a.signature.inputs.length) :
    (∃ f, Fault table i a.predicate input f ∧
      ((integerArgument ⟨input, i⟩ k name).run ⟨a.signature, input⟩ (.ofTable table)).1 =
        .error f) ∨
    ∃ value, input[k]?.bind table.integer? = some value ∧
      (integerArgument ⟨input, i⟩ k name).run ⟨a.signature, input⟩ (.ofTable table) =
        (.ok value, .ofTable table) := by
  refine (integerArgument_cases ⟨input, i⟩ k name ⟨a.signature, input⟩ (.ofTable table)).imp_left ?_
  rintro ⟨hnone, hrun⟩
  obtain ⟨s, hs, -⟩ := h.exists_argument htuple hinside
  have hother : ∀ value, table.resolve? s ≠ some (.integer value) := by
    intro value hvalue
    rw [hs] at hnone
    cases hnone.symm.trans (integer?_eq_some_iff.mpr hvalue)
  subst hname
  exact ⟨_, .notInteger hk hs hother, congrArg Prod.fst hrun⟩

theorem join_judged (quoted : List Operand → Bool)
    (hr : ∀ q, a.retrieve q = readOperands q.input >>= fun operands =>
      storeText (joinTexts operands) (quoted operands) >>= fun s => pure (.ofTuples [[s]]))
    (harity : a.signature.outputArity = 1) (hnone : ∀ f, ¬Fault table i a.predicate input f) :
    Judged ev a input i table := by
  obtain ⟨operands, hoperands⟩ := mapM_ok_of_forall fun s hs =>
    operand_succeeds h.wellFormed (Signature.usable_of_checkInput h.accepts s hs)
  obtain ⟨s, w, hs⟩ := storeText_succeeds ⟨a.signature, input⟩ (.ofTable table)
    (joinTexts operands) (quoted operands)
  refine judged_of_answer h ?_ (fun hw _ => Answer.presentable_single harity
    (hw.usable_of_finds (storeText_ok hs))) hnone
  rw [hr, Retrieval.run_bind_of_ok _ (readOperands_ok.mpr ⟨hoperands, rfl⟩),
    Retrieval.run_bind_of_ok _ hs]
  rfl

section Arguments
variable (htuple : a.signature.hasTupleInput = false)
include htuple

theorem exists_operand (hinside : 0 < a.signature.inputs.length) :
    ∃ s o, (Query.mk input i).arg? 0 = some s ∧ operand table s = .ok o := by
  obtain ⟨s, hs, husable⟩ := h.exists_argument htuple hinside
  obtain ⟨o, ho⟩ := operand_succeeds h.wellFormed husable
  exact ⟨s, o, hs, ho⟩

theorem strlen_judged (hr : a.retrieve = strlen) (hinside : 0 < a.signature.inputs.length)
    (harity : a.signature.outputArity = 1) (hnone : ∀ f, ¬Fault table i a.predicate input f) :
    Judged ev a input i table := by
  obtain ⟨s, o, hs, ho⟩ := exists_operand h htuple hinside
  have hrun : (a.retrieve ⟨input, i⟩).run ⟨a.signature, input⟩ (.ofTable table) =
      (.ok (.ofTuples [[(table.integer (Int64.ofNat o.text.length)).1]]),
        ⟨(table.integer (Int64.ofNat o.text.length)).2, #[]⟩) := by
    rw [hr, strlen, Retrieval.run_bind_of_ok _ (argument_ok.mpr ⟨hs, rfl⟩),
      Retrieval.run_bind_of_ok _ (readOperand_ok.mpr ⟨ho, rfl⟩)]
    rfl
  exact judged_of_answer h hrun
    (fun hw _ => Answer.presentable_single harity (hw.usable_of_finds (.intern rfl))) hnone

theorem integers_judged {name : String} (hname : a.predicate = name) {j k : Nat}
    (hintegers : integerInputs name = [j, k]) (hj : j < a.signature.inputs.length)
    (hk : k < a.signature.inputs.length) {g : Int64 → Int64 → Retrieval Answer}
    (hread : (a.retrieve ⟨input, i⟩).run ⟨a.signature, input⟩ (.ofTable table) =
      (integerArgument ⟨input, i⟩ j name >>= fun x => integerArgument ⟨input, i⟩ k name >>= fun y =>
        g x y).run ⟨a.signature, input⟩ (.ofTable table))
    (hg : ∀ x y, ∃ given w,
      (g x y).run ⟨a.signature, input⟩ (.ofTable table) = (.ok given, w) ∧
        (WellFormed w.table → given.Presentable a.signature w.table)) :
    Judged ev a input i table := by
  -- where neither is an integer the error names the one that is read first
  rcases integerArgument_judged h hname htuple (k := j) (by simp [hintegers]) hj with
    ⟨f, hf, hx⟩ | ⟨x, hvalue, hx⟩
  · refine judged_of_fault h ?_ hf
    rw [hread]
    exact Retrieval.run_bind_of_error _ hx
  rcases integerArgument_judged h hname htuple (k := k) (by simp [hintegers]) hk with
    ⟨f, hf, hy⟩ | ⟨y, hvalue', hy⟩
  · refine judged_of_fault h ?_ hf
    rw [hread, Retrieval.run_bind_of_ok _ hx]
    exact Retrieval.run_bind_of_error _ hy
  obtain ⟨given, w, hrun, hgiven⟩ := hg x y
  rw [Retrieval.run_bind_of_ok _ hx, Retrieval.run_bind_of_ok _ hy, hrun] at hread
  subst hname
  have hid : a.predicate ≠ "id" := fun hid => by simp [hid, integerInputs] at hintegers
  have hdifference : a.predicate ∉ differenceNames := by
    simp only [differenceNames, List.mem_cons, List.not_mem_nil, or_false]
    rintro (hother | hother | hother) <;> simp [hother, integerInputs] at hintegers
  refine judged_of_answer h hread (fun hw _ => hgiven hw)
    (not_fault_of_integers hid hdifference ?_)
  rw [hintegers]
  simpa using ⟨⟨x, hvalue⟩, ⟨y, hvalue'⟩⟩

theorem substr_judged (hr : a.retrieve = substr) (hname : a.predicate = "substr")
    (hinputs : a.signature.inputs.length = 3) (harity : a.signature.outputArity = 1) :
    Judged ev a input i table := by
  obtain ⟨s, o, hs, ho⟩ := exists_operand h htuple (by omega)
  refine integers_judged h htuple hname rfl (by omega) (by omega)
    (g := fun start count => storeText (cutText o.text start count) o.quoted >>= fun part =>
      pure (.ofTuples [[part]])) ?_ fun start count => ?_
  · rw [hr, substr, Retrieval.run_bind_of_ok _ (argument_ok.mpr ⟨hs, rfl⟩),
      Retrieval.run_bind_of_ok _ (readOperand_ok.mpr ⟨ho, rfl⟩)]
  · obtain ⟨part, w, hpart⟩ := storeText_succeeds ⟨a.signature, input⟩ (.ofTable table)
      (cutText o.text start count) o.quoted
    refine ⟨_, w, Retrieval.run_bind_of_ok _ hpart, fun hw => ?_⟩
    exact Answer.presentable_single harity (hw.usable_of_finds (storeText_ok hpart))

theorem smallerThan_judged (hr : a.retrieve = smallerThan)
    (hname : a.predicate = "testSmallerThan") (hinputs : a.signature.inputs.length = 2)
    (harity : a.signature.outputArity = 0) : Judged ev a input i table := by
  refine integers_judged h htuple hname rfl (by omega) (by omega)
    (g := fun x y => pure (verdict (.ofBool (x < y)))) (by rw [hr, smallerThan]) fun x y => ?_
  have hsettled : Truth.ofBool (x < y) ≠ .unknown := by
    cases decide (x < y) <;> simp [Truth.ofBool]
  exact ⟨_, _, rfl, fun _ => presentable_verdict harity (Or.inl hsettled)⟩

theorem numberOfBalls_judged (hr : a.retrieve = numberOfBalls)
    (hname : a.predicate = "numberOfBalls") (hinputs : a.signature.inputs.length = 3)
    (harity : a.signature.outputArity = 0)
    (hpartial : a.signature.properties.partialAnswers = true) : Judged ev a input i table := by
  obtain ⟨p, hp, -⟩ := h.exists_argument htuple (k := 0) (by omega)
  refine integers_judged h htuple hname rfl (by omega) (by omega)
    (g := fun lower upper => countInputs ⟨input, i⟩ p >>= fun tally =>
      pure (verdict (tally.within lower.toInt upper.toInt))) ?_ fun lower upper => ?_
  · rw [hr, numberOfBalls, Retrieval.run_bind_of_ok _ (inputArgument_ok.mpr ⟨hp, rfl⟩)]
  · have hcount := @countInputs_ok ⟨input, i⟩ ⟨a.signature, input⟩ (.ofTable table)
      h.built.snapshot p
    exact ⟨_, _, Retrieval.run_bind_of_ok _ hcount,
      fun _ => presentable_verdict harity (Or.inr hpartial)⟩

theorem identityOfConstant_judged (hr : a.retrieve = identityOfConstant)
    (hinside : 0 < a.signature.inputs.length) (harity : a.signature.outputArity = 1)
    (hnone : ∀ f, ¬Fault table i a.predicate input f) : Judged ev a input i table := by
  obtain ⟨s, hs, husable⟩ := h.exists_argument htuple hinside
  refine judged_of_answer h (w := .ofTable table) ?_
    (fun _ hl => Answer.presentable_single harity (husable.extend hl)) hnone
  rw [hr, identityOfConstant, Retrieval.run_bind_of_ok _ (inputArgument_ok.mpr ⟨hs, rfl⟩)]
  rfl

theorem isEmpty_judged (hr : a.retrieve = isEmpty) (hinside : 0 < a.signature.inputs.length)
    (harity : a.signature.outputArity = 0) (hpartial : a.signature.properties.partialAnswers = true)
    (hnone : ∀ f, ¬Fault table i a.predicate input f) : Judged ev a input i table := by
  obtain ⟨p, hp, -⟩ := h.exists_argument htuple hinside
  have hrun := (@isEmpty_run_ok ⟨input, i⟩ ⟨a.signature, input⟩ (.ofTable table) _ _
    h.built.snapshot).mpr ⟨p, hp, rfl, rfl⟩
  rw [← hr] at hrun
  exact judged_of_answer h hrun (fun _ _ => presentable_verdict harity (Or.inr hpartial)) hnone

theorem identity_judged (hr : a.retrieve = identity) (hname : a.predicate = "id")
    (hinside : 0 < a.signature.inputs.length) (harity : a.signature.outputArity = 1) :
    Judged ev a input i table := by
  obtain ⟨p, hp, -⟩ := h.exists_argument htuple hinside
  have hi := h.built.snapshot.faithful h.wellFormed
  have hrun : (a.retrieve ⟨input, i⟩).run ⟨a.signature, input⟩ (.ofTable table) =
      ((if (i.extension p).toList.all fun tuple => tuple.length == 1
        then pure (.ofTuples (i.extension p).toList)
        else .fail (.plugin "id" "only predicates of arity 1 are supported") : Retrieval Answer).run
          ⟨a.signature, input⟩ (.ofTable table)) := by
    rw [hr, identity, Retrieval.run_bind_of_ok _ (inputArgument_ok.mpr ⟨hp, rfl⟩)]
    rfl
  by_cases hall : ((i.extension p).toList.all fun tuple => tuple.length == 1) = true
  · rw [if_pos hall] at hrun
    simp only [List.all_eq_true, Std.ExtTreeSet.mem_toList, beq_iff_eq] at hall
    refine judged_of_answer h hrun (fun _ hl => Answer.presentable_ofTuples (fun t ht => ?_)
      fun t ht s hs => ?_) (not_fault_of_unary hname hp fun b hb hhead => ?_)
    · rw [harity]
      exact hall t (Std.ExtTreeSet.mem_toList.mp ht)
    · obtain ⟨b, -, -, rfl⟩ := (hi.mem_extension p t).mp (Std.ExtTreeSet.mem_toList.mp ht)
      exact (h.built.reached.admits.usable_arguments hs).extend hl
    · exact hall _ ((hi.mem_extension p _).mpr ⟨b, hb, hhead, rfl⟩)
  · rw [if_neg hall] at hrun
    simp only [List.all_eq_true, Std.ExtTreeSet.mem_toList, beq_iff_eq, not_forall] at hall
    obtain ⟨t, ht, hlength⟩ := hall
    obtain ⟨b, hb, hhead, rfl⟩ := (hi.mem_extension p t).mp ht
    exact judged_of_fault h (congrArg Prod.fst hrun) (.notUnary hname hp hb hhead hlength)

end Arguments

section Differences
variable {p s : Symbol}

theorem remainder_judged (hp : (Query.mk input i).arg? 0 = some p)
    (hs : (Query.mk input i).arg? 1 = some s)
    (hname : a.predicate = "testSetMinus" ∨ a.predicate = "testSetMinusTrueAtoms")
    (harity : a.signature.outputArity = 1)
    (hrun : (a.retrieve ⟨input, i⟩).run ⟨a.signature, input⟩ (.ofTable table) =
      (.ok (remainder i p s), .ofTable table)) : Judged ev a input i table := by
  by_cases hlengths : ∀ t, Remains i p s t → t.length = 1
  · refine judged_of_answer h hrun (fun _ hl => presentable_remainder hlengths h.built harity hl)
      (not_fault_of_lengths ?_ hp hs hlengths)
    rcases hname with hname | hname <;> simp [hname, differenceNames]
  · simp only [not_forall] at hlengths
    obtain ⟨t, ht, hlength⟩ := hlengths
    obtain ⟨t', ht', hlength', hresult⟩ := h.result_of_length (congrArg Prod.fst hrun)
      (Answer.unknownTuples_ofTuples _) ⟨t, mem_remainder.mpr ht, by rwa [harity]⟩
    rw [harity] at hlength' hresult
    exact Or.inl ⟨_, hresult, .answerLength hname hp hs (mem_remainder.mp ht') hlength'⟩

/-- The form that submits nogoods has the lengths checked by the stores of the output atoms. -/
theorem setMinusLearn_judged (hr : a.retrieve = setMinusLearn)
    (hname : a.predicate = "testSetMinusLearn")
    (hinputs : a.signature.inputs = [.predicate, .predicate])
    (harity : a.signature.outputArity = 1) : Judged ev a input i table := by
  obtain ⟨p, s, hp, hs, ⟨hpn, hpc⟩, hsn, hsc⟩ :=
    predicates_of_checkInput (q := ⟨input, i⟩) hinputs h.accepts
  have hidentifier : Text.isIdentifier a.signature.predicate = true := by
    rw [show a.signature.predicate = _ from hname]
    decide
  have hb := h.asked_bounded
  rw [ExternalAtom.ask, hr] at hb
  by_cases hlengths : ∀ t, Remains i p s t → t.length = 1
  · obtain ⟨given, w, hrun⟩ := (setMinusLearn_succeeds_iff (q := ⟨input, i⟩) h.built h.accepts
      hidentifier hp hs hpn hpc hsn hsc hb).mpr (by rwa [harity])
    obtain ⟨rfl, -⟩ := (setMinusLearn_run_ok hp hs).mp hrun
    rw [← hr] at hrun
    refine judged_of_answer h hrun (fun _ hl => presentable_remainder hlengths h.built harity hl)
      (not_fault_of_lengths ?_ hp hs hlengths)
    simp [hname, differenceNames]
  · simp only [not_forall] at hlengths
    obtain ⟨t, ht, hlength⟩ := hlengths
    -- the submissions go well up to the first tuple of another length, and end there
    have husable : ∀ t ∈ difference (i.extension p) (i.extension s), ∀ arg ∈ input ++ t,
        table.Usable arg := by
      intro t ht arg harg
      rcases List.mem_append.mp harg with harg | harg
      · exact Signature.usable_of_checkInput h.accepts arg harg
      · exact usable_of_remains h.built (mem_difference.mp ht) arg harg
    have hreaches := setMinusLearn_reaches hp hs ⟨a.signature, input⟩ (.ofTable table)
    obtain ⟨t', ht', hlength', hrun⟩ := @learnOutputs_refused ⟨a.signature, input⟩ p s
      (.ofTable table) h.wellFormed hpn hpc hsn hsc hidentifier _ husable
      ⟨t, mem_difference.mpr ht, by rwa [harity]⟩ (Nat.le_trans hreaches.size_le hb)
    rw [harity] at hlength' hrun
    refine judged_of_fault h ?_ (.atomLength hname hp hs (mem_difference.mp ht') hlength')
    rw [hr, setMinusLearn, Retrieval.run_bind_of_ok _ (inputArgument_ok.mpr ⟨hp, rfl⟩),
      Retrieval.run_bind_of_ok _ (inputArgument_ok.mpr ⟨hs, rfl⟩)]
    exact Retrieval.run_bind_of_error _ hrun

end Differences

theorem judged_of_mem (ha : a ∈ bundledAtoms) : Judged ev a input i table := by
  simp only [bundledAtoms, stringPlugin, testPlugin, List.mem_append, List.mem_cons,
    List.not_mem_nil, or_false] at ha
  rcases ha with (rfl | rfl | rfl) | rfl | rfl | rfl | rfl | rfl | rfl | rfl | rfl | rfl
  · exact join_judged h (fun _ => true) (fun _ => rfl) rfl (not_fault_of_unfailing (by decide))
  · exact strlen_judged h rfl rfl (by decide) rfl (not_fault_of_unfailing (by decide))
  · exact substr_judged h rfl rfl rfl rfl rfl
  · exact join_judged h (List.any · Operand.quoted) (fun _ => rfl) rfl
      (not_fault_of_unfailing (by decide))
  · obtain ⟨p, s, hp, hs, -⟩ := predicates_of_checkInput (q := ⟨input, i⟩) rfl h.accepts
    exact remainder_judged h hp hs (Or.inl rfl) rfl (setMinus_run hp hs _ _)
  · obtain ⟨p, s, hp, hs, -⟩ := predicates_of_checkInput (q := ⟨input, i⟩) rfl h.accepts
    exact remainder_judged h hp hs (Or.inr rfl) rfl
      (setMinusTrueAtoms_run hp hs _ h.built.snapshot)
  · exact setMinusLearn_judged h rfl rfl rfl rfl
  · exact identity_judged h rfl rfl rfl (by decide) rfl
  · exact identityOfConstant_judged h rfl rfl (by decide) rfl (not_fault_of_unfailing (by decide))
  · exact smallerThan_judged h rfl rfl rfl rfl rfl
  · exact isEmpty_judged h rfl rfl (by decide) rfl rfl (not_fault_of_unfailing (by decide))
  · exact numberOfBalls_judged h rfl rfl rfl rfl rfl rfl

end Judge

/-- A call of a bundled atom that takes its input fails exactly when there is a reason, and says
one. Five atoms never fail, and none fails with an internal error. -/
theorem bundled_fail_for_reasons {ev : Evaluator} (hstring : ev.registry.Loads stringPlugin)
    (htest : ev.registry.Loads testPlugin) {a : ExternalAtom} (ha : a ∈ bundledAtoms)
    {input : List Symbol} {i : Interpretation} {table : SymbolTable} (hi : i.BuiltOn table)
    (hinput : a.signature.checkInput table input = .ok ())
    (hb : (ev.evaluate a.predicate input i table).table.size ≤ 2 ^ 31) :
    let result := (ev.evaluate a.predicate input i table).result
    ((∃ f, result = .error f) ↔ ∃ f, Fault table i a.predicate input f) ∧
      (∀ f, result = .error f → Fault table i a.predicate input f ∧ ¬Internal f) ∧
      (a.predicate ∈ unfailing → ∃ e, result = .ok e) := by
  intro result
  rcases judged_of_mem ⟨find?_of_mem ha hstring htest, hinput, hi, hb⟩ ha with
    ⟨f, hf, hfault⟩ | ⟨⟨e, he⟩, hnone⟩
  · have honly : ∀ f', result = .error f' → f' = f := fun f' hf' =>
      Except.error.inj (hf'.symm.trans hf)
    refine ⟨iff_of_true ⟨f, hf⟩ ⟨f, hfault⟩, fun f' hf' => ?_, fun hname => ?_⟩
    · obtain rfl := honly f' hf'
      exact ⟨hfault, hfault.not_internal⟩
    · exact absurd hfault (not_fault_of_unfailing hname f)
  · have hfails : ∀ f, result ≠ .error f := fun f hf => by cases he.symm.trans hf
    exact ⟨iff_of_false (not_exists.mpr hfails) (not_exists.mpr hnone),
      fun f hf => absurd hf (hfails f), fun _ => ⟨e, he⟩⟩

/-- No part of `a` is cut out from `a` on, which is no number. -/
theorem bundled_fail_for_reasons_substr :
    (equipped.evaluate "substr" [⟨4⟩, ⟨4⟩, ⟨4⟩] (leftWhen .true) threeAtoms).result =
        .error (.plugin "substr" "input 1 must be an integer") ∧
      Fault threeAtoms (leftWhen .true) "substr" [⟨4⟩, ⟨4⟩, ⟨4⟩]
        (.plugin "substr" "input 1 must be an integer") := by
  have hmem : (⟨⟨"substr", [.constant, .constant, .constant], 1, {}⟩, substr⟩ : ExternalAtom) ∈
      bundledAtoms := by
    simp [bundledAtoms, stringPlugin]
  have hfails : (equipped.evaluate "substr" [⟨4⟩, ⟨4⟩, ⟨4⟩] (leftWhen .true) threeAtoms).result =
      .error (.plugin "substr" "input 1 must be an integer") := rfl
  have hb : (equipped.evaluate "substr" [⟨4⟩, ⟨4⟩, ⟨4⟩] (leftWhen .true) threeAtoms).table.size ≤
      2 ^ 31 := by decide +kernel
  obtain ⟨-, hfaults, -⟩ := bundled_fail_for_reasons equipped_loads.1 equipped_loads.2 hmem
    (leftWhen_builtOn .true) rfl hb
  exact ⟨hfails, (hfaults _ hfails).1⟩

end Bundled

end ExternalAtoms
