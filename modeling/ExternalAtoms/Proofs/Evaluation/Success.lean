import ExternalAtoms.Proofs.Evaluation.Draft
import ExternalAtoms.Proofs.Evaluation.OutputAtom

/-! # When evaluations succeed

A symbol that is positive and stored can be an argument of anything. So nothing can fail once an
answer has passed its check, provided that the answer is over such symbols: an evaluation succeeds
when the input passes, the atom answers, and the answer passes.
-/
namespace ExternalAtoms

namespace SymbolTable
variable {table later : SymbolTable} {s p : Symbol} {args : List Symbol}

/-- The handle is positive and known. -/
def Usable (table : SymbolTable) (s : Symbol) : Prop :=
  s.isNegated = false ∧ table.isKnown s = true

theorem Usable.extend (h : table.Usable s) (hl : Extends table later) : later.Usable s :=
  ⟨h.1, hl.isKnown h.2⟩

theorem Admits.usable_arguments (h : Admits table) (hs : s ∈ table.arguments p) :
    table.Usable s := by
  unfold arguments at hs
  split at hs
  · next name args hr =>
    obtain ⟨hpositive, hlt⟩ := (h _ _ hr).2.2 s hs
    have hsize := (Array.getElem?_eq_some_iff.mp hr).1
    refine ⟨hpositive, ?_⟩
    rw [isKnown, decide_eq_true_eq, size]
    omega
  · simp at hs

theorem apply_succeeds (name : NameId) (h : ∀ arg ∈ args, table.Usable arg) :
    ∃ s, (table.apply name args).1 = .ok s := by
  unfold SymbolTable.apply
  split
  · exact ⟨_, rfl⟩
  · rw [checkArguments_ok_iff.mpr h]
    exact ⟨_, rfl⟩

theorem function_succeeds (name : String) (h : ∀ arg ∈ args, table.Usable arg) :
    ∃ s, (table.function name args).1 = .ok s :=
  apply_succeeds _ fun arg ha => (h arg ha).extend (table.internName_extends name)

theorem usable_of_function {name : String} (h : (table.function name args).1 = .ok s) :
    ∀ arg ∈ args, table.Usable arg :=
  checkArguments_ok_iff.mp (checkArguments_of_function_ok h)

theorem atom_succeeds {name : NameId} (hp : table.headName p = .ok name)
    (h : ∀ arg ∈ args, table.Usable arg) : ∃ a, (table.atom (p :: args)).1 = .ok a := by
  simp only [SymbolTable.atom, hp]
  exact apply_succeeds name h

theorem headName_of_isPredicateConstant (hn : p.isNegated = false)
    (hp : table.isPredicateConstant p = true) : ∃ name, table.headName p = .ok name := by
  unfold isPredicateConstant at hp
  split at hp
  · next name hr => exact ⟨name, headName_ok_iff.mpr ⟨hn, hr, hp⟩⟩
  · simp at hp

theorem Extends.isPredicateConstant (h : Extends table later)
    (hp : table.isPredicateConstant p = true) : later.isPredicateConstant p = true := by
  unfold SymbolTable.isPredicateConstant at hp ⊢
  split at hp
  · next name hr =>
    rw [h.resolve hr]
    exact h.isPredicateName hp
  · simp at hp

theorem checkLiterals_succeeds {literals : List Symbol}
    (h : ∀ l ∈ literals, (table.isAtom l).1 = true) :
    (table.checkLiterals literals).1 = .ok () := by
  induction literals generalizing table with
  | nil => rfl
  | cons l rest ih =>
    have hl := h l List.mem_cons_self
    simp only [checkLiterals, known_of_isAtom hl, hl, if_true]
    exact ih fun l' hl' => (table.isAtom_extends l).isAtom (h l' (List.mem_cons_of_mem _ hl'))

theorem checkNogood_succeeds {n : Nogood} (hne : n.literals ≠ [])
    (h : ∀ l ∈ n.literals, (table.isAtom l).1 = true) : (table.checkNogood n).1 = .ok () := by
  rw [checkNogood, if_neg (by simpa [Nogood.isEmpty] using hne)]
  exact checkLiterals_succeeds h

end SymbolTable

open SymbolTable

namespace Signature
variable {s : Signature} {table : SymbolTable} {settings : Settings} {given : Answer}

theorem acceptsArgument_iff {index : Nat} {arg : Symbol} :
    s.acceptsArgument table index arg = true ↔ table.Usable arg ∧
      (s.kindAt index = some .predicate → table.isPredicateConstant arg = true) := by
  simp only [acceptsArgument, Usable, Bool.and_eq_true, Bool.or_eq_true, Bool.not_eq_true',
    bne_iff_ne, Decidable.imp_iff_not_or]

theorem checkArguments_ok_iff {index : Nat} {input : List Symbol} :
    s.checkArguments table index input = .ok () ↔
      ∀ n arg, input[n]? = some arg → s.acceptsArgument table (index + n) arg = true := by
  induction input generalizing index with
  | nil => simp [checkArguments]
  | cons arg rest ih =>
    have hsplit : (∀ n a, (arg :: rest)[n]? = some a →
          s.acceptsArgument table (index + n) a = true) ↔
        s.acceptsArgument table index arg = true ∧
          ∀ n a, rest[n]? = some a → s.acceptsArgument table (index + 1 + n) a = true := by
      constructor
      · intro h
        exact ⟨h 0 arg rfl, fun n a ha => by
          rw [Nat.add_right_comm, Nat.add_assoc]
          exact h (n + 1) a ha⟩
      · rintro ⟨h0, h⟩ n a ha
        cases n with
        | zero => exact Option.some.inj ha ▸ h0
        | succ n =>
          rw [← Nat.add_assoc, Nat.add_right_comm]
          exact h n a ha
    rw [hsplit, checkArguments, ← ih]
    split <;> simp [*]

theorem checkInput_ok_iff {input : List Symbol} : s.checkInput table input = .ok () ↔
    s.acceptsLength input.length = true ∧
      ∀ index arg, input[index]? = some arg → s.acceptsArgument table index arg = true := by
  rw [checkInput]
  split
  · next hlength => simp [checkArguments_ok_iff, hlength]
  · next hlength => simp [hlength]

theorem usable_of_checkInput {input : List Symbol} (h : s.checkInput table input = .ok ()) :
    ∀ arg ∈ input, table.Usable arg := by
  intro arg ha
  obtain ⟨index, hindex⟩ := List.mem_iff_getElem?.mp ha
  exact (acceptsArgument_iff.mp ((checkInput_ok_iff.mp h).2 index arg hindex)).1

theorem checkInput_extends {later : SymbolTable} (hl : Extends table later) {input : List Symbol}
    (h : s.checkInput table input = .ok ()) : s.checkInput later input = .ok () := by
  obtain ⟨hlength, hargs⟩ := checkInput_ok_iff.mp h
  refine checkInput_ok_iff.mpr ⟨hlength, fun index arg ha => ?_⟩
  obtain ⟨husable, hpredicate⟩ := acceptsArgument_iff.mp (hargs index arg ha)
  exact acceptsArgument_iff.mpr
    ⟨husable.extend hl, fun hkind => hl.isPredicateConstant (hpredicate hkind)⟩

/-- The tuples must have the output length, and unknown ones must be allowed or can be dropped. -/
theorem checkAnswer_succeeds_iff :
    (∃ checked, s.checkAnswer settings given = .ok checked) ↔
      (∀ t, t ∈ given.trueTuples ∨ t ∈ given.unknownTuples → t.length = s.outputArity) ∧
        (given.unknownTuples = ∅ ∨ s.properties.partialAnswers = true ∨
          settings.strict = false) := by
  have hlengths : (given.trueTuples.toList ++ given.unknownTuples.toList).find?
      (fun tuple => tuple.length != s.outputArity) = none ↔
        ∀ t, t ∈ given.trueTuples ∨ t ∈ given.unknownTuples → t.length = s.outputArity := by
    simp [or_imp, forall_and]
  rw [← hlengths, checkAnswer, ← Std.ExtTreeSet.isEmpty_iff]
  split
  · next hfound => simp [hfound]
  · next hfound =>
    rw [hfound]
    cases given.unknownTuples.isEmpty <;> cases s.properties.partialAnswers <;>
      cases settings.strict <;> simp

end Signature

namespace Invocation
variable {call : Invocation} {table : SymbolTable} {t : Tuple} {answer : Answer}

/-- The tuple has the output length, and it and the input are over positive stored symbols. -/
def Storable (call : Invocation) (table : SymbolTable) (t : Tuple) : Prop :=
  t.length = call.signature.outputArity ∧ ∀ arg ∈ call.input ++ t, table.Usable arg

theorem Storable.extend {later : SymbolTable} (h : call.Storable table t)
    (hl : Extends table later) : call.Storable later t :=
  ⟨h.1, fun arg ha => (h.2 arg ha).extend hl⟩

theorem storeOutputAtom_succeeds_iff :
    (∃ o, (call.storeOutputAtom table t).1 = .ok o) ↔ call.Storable table t := by
  unfold storeOutputAtom
  split
  · next hlength =>
    constructor
    · rintro ⟨o, ho⟩
      exact ⟨hlength, usable_of_function ho⟩
    · exact fun h => function_succeeds _ h.2
  · next hlength => simp [Storable, hlength]

theorem storeOutputAtoms_succeeds {tuples : List Tuple}
    (h : ∀ t ∈ tuples, call.Storable table t) :
    ∃ outputs, (call.storeOutputAtoms table tuples).1 = .ok outputs := by
  induction tuples generalizing table with
  | nil => exact ⟨[], rfl⟩
  | cons t rest ih =>
    obtain ⟨o, ho⟩ := storeOutputAtom_succeeds_iff.mpr (h t List.mem_cons_self)
    have hl := (call.storeOutputAtom_reaches table t).toExtends
    obtain ⟨others, hothers⟩ := ih fun t' ht' => (h t' (List.mem_cons_of_mem _ ht')).extend hl
    simp only [storeOutputAtoms, ho, hothers]
    exact ⟨_, rfl⟩

theorem storeAnswer_succeeds (reported : Truth)
    (h : ∀ t, t ∈ answer.trueTuples ∨ t ∈ answer.unknownTuples → call.Storable table t) :
    ∃ outputs, (call.storeAnswer answer reported table).1 = .ok outputs := by
  have hl := (call.storeOutputAtoms_reaches table answer.trueTuples.toList).toExtends
  obtain ⟨settled, hsettled⟩ := storeOutputAtoms_succeeds fun t ht =>
    h t (Or.inl (Std.ExtTreeSet.mem_toList.mp ht))
  obtain ⟨unsettled, hunsettled⟩ := storeOutputAtoms_succeeds fun t ht =>
    (h t (Or.inr (Std.ExtTreeSet.mem_toList.mp ht))).extend hl
  simp only [storeAnswer, hsettled, hunsettled]
  exact ⟨_, rfl⟩

theorem deriveNogoods_succeeds (i : Interpretation) {tuples : List Tuple}
    (h : ∀ t ∈ tuples, call.Storable table t) :
    ∃ derived, (call.deriveNogoods i tuples table).1 = .ok derived := by
  have hl := (call.premise_reaches i table).toExtends
  simp only [deriveNogoods]
  split
  · exact ⟨[], rfl⟩
  · obtain ⟨outputs, houtputs⟩ := storeOutputAtoms_succeeds fun t ht => (h t ht).extend hl
    rw [houtputs]
    exact ⟨_, rfl⟩

theorem conclude_succeeds (settings : Settings) (i : Interpretation) (submitted : List Nogood)
    (h : ∀ t, t ∈ answer.trueTuples ∨ t ∈ answer.unknownTuples → call.Storable table t) :
    ∃ draft, (call.conclude settings i answer submitted table).1 = .ok draft := by
  have hlearned : ∃ derived middle, (if call.learns settings then
      call.deriveNogoods i answer.trueTuples.toList table else (.ok [], table)) =
        (.ok derived, middle) ∧ Reaches table middle := by
    split
    · obtain ⟨derived, hderived⟩ := deriveNogoods_succeeds i fun t ht =>
        h t (Or.inl (Std.ExtTreeSet.mem_toList.mp ht))
      exact ⟨derived, _, Prod.ext hderived rfl, call.deriveNogoods_reaches i _ table⟩
    · exact ⟨[], table, rfl, .refl⟩
  obtain ⟨derived, middle, hderived, hmiddle⟩ := hlearned
  obtain ⟨outputs, houtputs⟩ := storeAnswer_succeeds (if call.isProvisional i then .unknown
    else .true) fun t ht => (h t ht).extend hmiddle.toExtends
  simp only [conclude, hderived, houtputs]
  exact ⟨_, rfl⟩

end Invocation

/-- What an attempt needs to succeed, from its checks and from the atom. -/
theorem ExternalAtom.attempt_succeeds {a : ExternalAtom} {settings : Settings} {q : Query}
    {table : SymbolTable} {given answer : Answer} {dropped : Nat}
    (hinput : a.signature.checkInput table q.input = .ok ())
    (hgiven : (a.ask q table).1 = .ok given)
    (hanswer : a.signature.checkAnswer settings given = .ok (answer, dropped))
    (husable : ∀ t, t ∈ answer.trueTuples ∨ t ∈ answer.unknownTuples →
      ∀ s ∈ t, (a.ask q table).2.table.Usable s) :
    ∃ draft, (a.attempt settings q table).result = .ok draft := by
  have hlengths := (Signature.checkAnswer_succeeds_iff.mp ⟨_, hanswer⟩).1
  have hl := (a.ask_reaches q table).toExtends
  have hstorable : ∀ t, t ∈ answer.trueTuples ∨ t ∈ answer.unknownTuples →
      Invocation.Storable ⟨a.signature, q.input⟩ (a.ask q table).2.table t := by
    refine fun t ht => ⟨hlengths t (Signature.kept_of_checkAnswer hanswer ht), fun arg ha => ?_⟩
    rcases List.mem_append.mp ha with ha | ha
    · exact (Signature.usable_of_checkInput hinput arg ha).extend hl
    · exact husable t ht arg ha
  obtain ⟨draft, hdraft⟩ := Invocation.conclude_succeeds settings q.interpretation
    (a.ask q table).2.pending.toList hstorable
  simp only [attempt, hinput, hgiven, hanswer, hdraft]
  exact ⟨draft, rfl⟩

theorem Evaluator.evaluate_succeeds_iff {ev : Evaluator} {predicate : String} {a : ExternalAtom}
    (hatom : ev.registry.find? predicate = some a) {input : List Symbol} {i : Interpretation}
    {table : SymbolTable} : (∃ e, (ev.evaluate predicate input i table).result = .ok e) ↔
      ∃ draft, (a.attempt ev.settings ⟨input, i⟩ table).result = .ok draft := by
  simp only [evaluate, attempt, hatom]
  cases (a.attempt ev.settings ⟨input, i⟩ table).result <;> simp

/-- When the atom gives an answer without unknown tuples, the evaluation depends on the length of
the tuples alone and presents this answer. -/
theorem Evaluator.evaluate_of_given {ev : Evaluator} {predicate : String} {a : ExternalAtom}
    (hatom : ev.registry.find? predicate = some a) {input : List Symbol} {i : Interpretation}
    {table : SymbolTable} {given : Answer} (hinput : a.signature.checkInput table input = .ok ())
    (hgiven : (a.ask ⟨input, i⟩ table).1 = .ok given) (hnone : given.unknownTuples = ∅)
    (husable : ∀ t ∈ given.trueTuples, ∀ s ∈ t, (a.ask ⟨input, i⟩ table).2.table.Usable s) :
    ((∃ e, (ev.evaluate predicate input i table).result = .ok e) ↔
        ∀ t ∈ given.trueTuples, t.length = a.signature.outputArity) ∧
      ∀ e, (ev.evaluate predicate input i table).result = .ok e → e.answer = given ∧
        e.provisional = (i.isPartial && !a.signature.properties.partialAnswers) := by
  have honly : ∀ t, t ∈ given.trueTuples ∨ t ∈ given.unknownTuples → t ∈ given.trueTuples := by
    rintro t (ht | ht)
    · exact ht
    · rw [hnone] at ht
      exact absurd ht Std.ExtTreeSet.not_mem_empty
  have hdraft : ∀ draft, (a.attempt ev.settings ⟨input, i⟩ table).result = .ok draft →
      draft.answer = given ∧
        ∃ checked, a.signature.checkAnswer ev.settings given = .ok checked := by
    intro draft hd
    obtain ⟨given', dropped, -, hgiven', hchecked, -⟩ := ExternalAtom.attempt_ok hd
    obtain rfl := Except.ok.inj (hgiven.symm.trans hgiven')
    refine ⟨?_, _, hchecked⟩
    -- there are no unknown tuples that the check could have dropped
    rcases Signature.checkAnswer_ok hchecked with ⟨hkept, -⟩ | ⟨hdropped, -⟩
    · exact hkept
    · rw [hdropped]
      exact Answer.ext rfl hnone.symm
  constructor
  · rw [evaluate_succeeds_iff hatom]
    constructor
    · rintro ⟨draft, hd⟩ t ht
      exact (Signature.checkAnswer_succeeds_iff.mp (hdraft draft hd).2).1 t (Or.inl ht)
    · intro hlengths
      obtain ⟨⟨answer, dropped⟩, hchecked⟩ := Signature.checkAnswer_succeeds_iff.mpr
        ⟨fun t ht => hlengths t (honly t ht), Or.inl hnone⟩
      exact ExternalAtom.attempt_succeeds hinput hgiven hchecked fun t ht =>
        husable t (honly t (Signature.kept_of_checkAnswer hchecked ht))
  · intro e he
    obtain ⟨draft, hd, hanswer, hprovisional⟩ := exists_draft hatom he
    rw [hanswer, hprovisional, ExternalAtom.provisional_of_attempt hd]
    exact ⟨(hdraft draft hd).1, rfl⟩

end ExternalAtoms
