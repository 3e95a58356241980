import ExternalAtoms.Proofs.Evaluation.Learned

/-! # What the settings change

Two evaluators in the same state that differ in one setting are asked the same question. Learning
stores the output atoms of the true tuples earlier and looks at the heads of the input atoms, but
the heads are stored and the output atoms are found again, so both calls fail alike, or both succeed
and only derived nogoods tell them apart. Strictness matters only to an answer with unknown tuples
that may not be reported.
-/
namespace ExternalAtoms
open SymbolTable Sample

namespace Invocation
variable {call : Invocation} {i : Interpretation} {answer : Answer} {table : SymbolTable}

theorem storeAnswer_of_stored (ha : Admits table) {outputs : List Symbol}
    (ho : (call.storeOutputAtoms table answer.trueTuples.toList).1 = .ok outputs)
    (reported : Truth) :
    call.storeAnswer answer reported (call.storeOutputAtoms table answer.trueTuples.toList).2 =
      call.storeAnswer answer reported table := by
  simp only [storeAnswer, storeOutputAtoms_again ha ho .refl, ho]

/-- When the views of the interpretation agree, deriving nogoods stores the output atoms of the
tuples and nothing else, if anything. -/
theorem deriveNogoods_of_snapshot (ha : Admits table) (hi : i.Snapshot table)
    (tuples : List Tuple) :
    call.deriveNogoods i tuples table = (.ok [], table) ∨
      ∃ premise, call.deriveNogoods i tuples table =
        ((call.storeOutputAtoms table tuples).1.map fun outputs => outputs.map (justify premise),
          (call.storeOutputAtoms table tuples).2) := by
  obtain ⟨htable, -⟩ := call.premise_collects_of_snapshot ha hi
  simp only [deriveNogoods, htable]
  cases (call.premise i table).1 with
  | none => exact .inl rfl
  | some premise => exact .inr ⟨premise, rfl⟩

theorem conclude_of_learned {strict : Bool} {submitted derived : List Nogood} {middle : SymbolTable}
    (hlearned : (if call.learns ⟨true, strict⟩ then
      call.deriveNogoods i answer.trueTuples.toList table else (.ok [], table)) =
        (.ok derived, middle))
    (hstored : ∀ reported, call.storeAnswer answer reported middle =
      call.storeAnswer answer reported table) :
    call.conclude ⟨true, strict⟩ i answer submitted table =
      ((call.conclude ⟨false, strict⟩ i answer submitted table).1.map fun draft =>
          { draft with derived },
        (call.conclude ⟨false, strict⟩ i answer submitted table).2) := by
  have hoff : call.learns ⟨false, strict⟩ = false := Bool.false_and _
  simp only [conclude, hlearned, hstored, hoff, Bool.false_eq_true, if_false]
  cases (call.storeAnswer answer (if call.isProvisional i then .unknown else .true) table).1 <;> rfl

theorem conclude_learning (call : Invocation) (answer : Answer) (ha : Admits table)
    (hi : i.Snapshot table) (strict : Bool) (submitted : List Nogood) :
    ∃ derived, call.conclude ⟨true, strict⟩ i answer submitted table =
      ((call.conclude ⟨false, strict⟩ i answer submitted table).1.map fun draft =>
          { draft with derived },
        (call.conclude ⟨false, strict⟩ i answer submitted table).2) := by
  by_cases hon : call.learns ⟨true, strict⟩ = true
  · rcases deriveNogoods_of_snapshot ha hi answer.trueTuples.toList with hnone | ⟨premise, hsome⟩
    · exact ⟨[], conclude_of_learned (by rw [if_pos hon, hnone]) fun _ => rfl⟩
    · cases hs : (call.storeOutputAtoms table answer.trueTuples.toList).1 with
      | ok outputs =>
        rw [hs] at hsome
        exact ⟨_, conclude_of_learned (by rw [if_pos hon, hsome]; rfl)
          (storeAnswer_of_stored ha hs)⟩
      | error e =>
        -- An output atom that is refused fails the call while it is derived or when it is stored.
        have hoff : call.learns ⟨false, strict⟩ = false := Bool.false_and _
        refine ⟨[], ?_⟩
        simp only [conclude, hon, hoff, if_true, hsome, hs, storeAnswer, Except.map,
          Bool.false_eq_true, if_false]
  · exact ⟨[], conclude_of_learned (if_neg hon) fun _ => rfl⟩

end Invocation

namespace Signature
variable {s : Signature} {given : Answer}

theorem checkAnswer_learning (strict : Bool) :
    s.checkAnswer ⟨true, strict⟩ given = s.checkAnswer ⟨false, strict⟩ given := rfl

theorem checkAnswer_lenient (learning : Bool)
    (h : s.checkAnswer ⟨learning, true⟩ given ≠ .error (.unexpectedUnknown s.predicate)) :
    s.checkAnswer ⟨learning, false⟩ given = s.checkAnswer ⟨learning, true⟩ given := by
  unfold checkAnswer at h ⊢
  dsimp only at h ⊢
  split
  · rfl
  · next hlengths =>
    rw [hlengths] at h
    dsimp only at h
    split
    · rfl
    · next hunknown => simp [hunknown] at h

end Signature

namespace ExternalAtom
variable {a : ExternalAtom} {q : Query} {table : SymbolTable}

theorem attempt_learning (hi : q.interpretation.BuiltOn table) (strict : Bool) :
    ∃ derived, a.attempt ⟨true, strict⟩ q table =
      { a.attempt ⟨false, strict⟩ q table with
        result := (a.attempt ⟨false, strict⟩ q table).result.map fun draft =>
          { draft with derived } } := by
  have hasked := hi.extend (a.ask_reaches q table)
  unfold attempt
  split
  · exact ⟨[], rfl⟩
  · dsimp only
    split
    · exact ⟨[], rfl⟩
    · rw [Signature.checkAnswer_learning]
      split
      · exact ⟨[], rfl⟩
      · next answer dropped _ =>
        obtain ⟨derived, hconclude⟩ := Invocation.conclude_learning ⟨a.signature, q.input⟩ answer
          hasked.reached.admits hasked.snapshot strict (a.ask q table).2.pending.toList
        exact ⟨derived, by rw [hconclude]⟩

theorem attempt_lenient (learning : Bool)
    (h : ∀ predicate, (a.attempt ⟨learning, true⟩ q table).result ≠
      .error (.unexpectedUnknown predicate)) :
    a.attempt ⟨learning, false⟩ q table = a.attempt ⟨learning, true⟩ q table := by
  unfold attempt at h ⊢
  split
  · rfl
  · next hinput =>
    rw [hinput] at h
    dsimp only at h ⊢
    split
    · rfl
    · next given hgiven =>
      rw [hgiven] at h
      have hchecked : a.signature.checkAnswer ⟨learning, false⟩ given =
          a.signature.checkAnswer ⟨learning, true⟩ given := by
        refine Signature.checkAnswer_lenient learning fun hrefused => ?_
        simp only [hrefused] at h
        exact h _ rfl
      rw [hchecked]
      rfl

theorem derivedFor_of_builtOn {settings : Settings} {draft : Draft}
    (hi : q.interpretation.BuiltOn table)
    (hd : (a.attempt settings q table).result = .ok draft) :
    ∀ n ∈ draft.derived, ∃ t ∈ draft.answer.trueTuples,
      Invocation.DerivedFor ⟨a.signature, q.input⟩ table (a.attempt settings q table).table
        q.interpretation t n := by
  obtain ⟨hnone, hall⟩ := derivedFor_of_attempt hi.reached hd .refl
  intro n hn
  by_cases hl : a.Learns settings q table
  · obtain ⟨t, ht, o, ho, hliterals⟩ := exists_of_mem_forall₂ (hall hl) hn
    have hscanned : Grows table (a.scanned q table) :=
      ((a.ask_reaches q table).trans (Invocation.premise_reaches _ _ _)).grows hi.reached.admits
    refine ⟨t, Std.ExtTreeSet.mem_toList.mp ht, o, ho, fun l => ?_⟩
    rw [hliterals]
    simp only [Invocation.JustifyingLiteral,
      Invocation.ListedAtom.iff_of_snapshot hi.snapshot hscanned]
  · simp [hnone hl] at hn

end ExternalAtom

namespace Evaluator

/-- The evaluator in the same state under other settings. -/
def under (ev : Evaluator) (settings : Settings) : Evaluator := { ev with settings }

def dropping (ev : Evaluator) (count : Nat) : Evaluator :=
  { ev with counters := ev.counters.recordDropped count }

section Commit

theorem learnAll_under (settings : Settings) (derived : Bool) (offered : List Nogood)
    (ev : Evaluator) :
    (ev.under settings).learnAll derived offered =
      ((ev.learnAll derived offered).1, (ev.learnAll derived offered).2.under settings) := by
  induction offered generalizing ev with
  | nil => rfl
  | cons n rest ih =>
    have hrest := ih (ev.learn derived n).2
    rw [show (ev.learn derived n).2.under settings = ((ev.under settings).learn derived n).2
      from rfl] at hrest
    simp only [learnAll, hrest]
    rfl

theorem commit_under (settings : Settings) (ev : Evaluator) (draft : Draft) :
    (ev.under settings).commit draft =
      ((ev.commit draft).1, (ev.commit draft).2.under settings) := by
  simp only [commit, learnAll_under]
  rfl

theorem commit_derived (ev : Evaluator) {draft : Draft} (hnone : draft.derived = [])
    (derived : List Nogood) :
    ∃ extra, (ev.commit { draft with derived }).1 =
        { (ev.commit draft).1 with learned := (ev.commit draft).1.learned ++ extra } ∧
      ∀ n ∈ extra, n ∈ derived := by
  refine ⟨((ev.learnAll false draft.submitted).2.learnAll true derived).1, ?_, fun n hn => ?_⟩
  · simp only [commit, hnone, learnAll, List.append_nil]
  · exact (mem_learnAll_fst_iff.mp hn).1.2

end Commit

section Evaluate
variable {ev : Evaluator} {predicate : String} {input : List Symbol} {i : Interpretation}
  {table : SymbolTable}

theorem evaluate_under (ev : Evaluator) {settings : Settings}
    (h : (ev.under settings).attempt predicate ⟨input, i⟩ table =
      ev.attempt predicate ⟨input, i⟩ table) :
    (ev.under settings).evaluate predicate input i table =
      { ev.evaluate predicate input i table with
        evaluator := (ev.evaluate predicate input i table).evaluator.under settings } := by
  simp only [evaluate, h]
  split
  · rfl
  · next draft _ =>
    have hcommit := commit_under settings
      (ev.dropping (ev.attempt predicate ⟨input, i⟩ table).dropped) draft
    exact congrArg (fun committed : Evaluation × Evaluator =>
      Outcome.mk (.ok committed.1) committed.2 (ev.attempt predicate ⟨input, i⟩ table).table)
      hcommit

theorem evaluate_lenient (learning : Bool)
    (h : ∀ p, ((ev.under ⟨learning, true⟩).evaluate predicate input i table).result ≠
      .error (.unexpectedUnknown p)) :
    (ev.under ⟨learning, false⟩).evaluate predicate input i table =
      { (ev.under ⟨learning, true⟩).evaluate predicate input i table with
        evaluator := ((ev.under ⟨learning, true⟩).evaluate predicate input i
          table).evaluator.under ⟨learning, false⟩ } := by
  refine (ev.under ⟨learning, true⟩).evaluate_under ?_
  cases hatom : ev.registry.find? predicate with
  | none => simp only [attempt, under, hatom]
  | some a =>
    simp only [attempt, under, hatom]
    refine a.attempt_lenient learning fun p hrefused => h p ?_
    simp only [evaluate, attempt, under, hatom, hrefused]

/-- What a call returns under other settings, told from the attempt of its atom. -/
theorem result_under {a : ExternalAtom} (hatom : ev.registry.find? predicate = some a)
    (settings : Settings) : ((ev.under settings).evaluate predicate input i table).result =
      (a.attempt settings ⟨input, i⟩ table).result.map fun draft =>
        ((ev.dropping (a.attempt settings ⟨input, i⟩ table).dropped).commit draft).1 := by
  have hattempt : (ev.under settings).attempt predicate ⟨input, i⟩ table =
      a.attempt settings ⟨input, i⟩ table := by
    simp only [attempt, under, hatom]
  simp only [evaluate, hattempt]
  cases (a.attempt settings ⟨input, i⟩ table).result with
  | error f => rfl
  | ok draft =>
    have hcommit := congrArg Prod.fst (commit_under settings
      (ev.dropping (a.attempt settings ⟨input, i⟩ table).dropped) draft)
    dsimp only at hcommit
    exact congrArg Except.ok hcommit

theorem table_under {a : ExternalAtom} (hatom : ev.registry.find? predicate = some a)
    (settings : Settings) : ((ev.under settings).evaluate predicate input i table).table =
      (a.attempt settings ⟨input, i⟩ table).table := by
  simp only [evaluate_table, attempt, under, hatom]

theorem evaluate_learning (hi : i.BuiltOn table) (strict : Bool) :
    let on := (ev.under ⟨true, strict⟩).evaluate predicate input i table
    let off := (ev.under ⟨false, strict⟩).evaluate predicate input i table
    on.table = off.table ∧ (∀ f, on.result = .error f ↔ off.result = .error f) ∧
      ∀ e, off.result = .ok e → ∃ extra,
        on.result = .ok { e with learned := e.learned ++ extra } ∧
        ∀ n ∈ extra, ∃ a, ev.registry.find? predicate = some a ∧
          ∃ t ∈ e.answer.trueTuples,
            Invocation.DerivedFor ⟨a.signature, input⟩ table on.table i t n := by
  intro on off
  cases hatom : ev.registry.find? predicate with
  | none => simp [on, off, evaluate, attempt, under, hatom]
  | some a =>
    obtain ⟨derived, hattempt⟩ := a.attempt_learning (q := ⟨input, i⟩) hi strict
    have hresult : on.result = _ := result_under hatom ⟨true, strict⟩
    have hresult' : off.result = _ := result_under hatom ⟨false, strict⟩
    have htable : on.table = _ := table_under hatom ⟨true, strict⟩
    have htable' : off.table = _ := table_under hatom ⟨false, strict⟩
    refine ⟨by rw [htable, htable', hattempt], ?_⟩
    cases hd : (a.attempt ⟨false, strict⟩ ⟨input, i⟩ table).result with
    | error f =>
      rw [hd] at hresult'
      rw [hattempt, hd] at hresult
      simp [hresult, hresult', Except.map]
    | ok draft =>
      have hon : (a.attempt ⟨true, strict⟩ ⟨input, i⟩ table).result =
          .ok { draft with derived } := by
        rw [hattempt, hd]
        rfl
      -- without learning nothing was derived, so the derived nogoods are all that is added
      have hnone : draft.derived = [] :=
        (ExternalAtom.derivedFor_of_attempt hi.reached hd .refl).1 fun hl =>
          Bool.false_ne_true hl.1
      obtain ⟨extra, hcommit, hextra⟩ := (ev.dropping
        (a.attempt ⟨false, strict⟩ ⟨input, i⟩ table).dropped).commit_derived hnone derived
      rw [hd] at hresult'
      rw [hattempt, hd] at hresult
      refine ⟨by simp [hresult, hresult', Except.map], fun e he => ⟨extra, ?_, fun n hn => ?_⟩⟩
      · obtain rfl := Except.ok.inj (hresult'.symm.trans he)
        rw [hresult]
        exact congrArg Except.ok hcommit
      · obtain rfl := Except.ok.inj (hresult'.symm.trans he)
        obtain ⟨t, ht, hderived⟩ := ExternalAtom.derivedFor_of_builtOn hi hon n (hextra n hn)
        rw [← htable] at hderived
        exact ⟨a, rfl, t, ht, hderived⟩

/-- A setting changes only what it names. With learning on a call returns what it returns with
learning off, and what it learns in addition is derived from its true tuples. Without strictness it
does what it does with it, except where strictness refuses unknown tuples. -/
theorem settings_change_what_they_name (ev : Evaluator) (predicate : String) (input : List Symbol)
    (i : Interpretation) (table : SymbolTable) :
    let run := fun learning strict =>
      (ev.under ⟨learning, strict⟩).evaluate predicate input i table
    (i.BuiltOn table → ∀ strict,
      (run true strict).table = (run false strict).table ∧
        (∀ f, (run true strict).result = .error f ↔ (run false strict).result = .error f) ∧
        ∀ e, (run false strict).result = .ok e → ∃ extra,
          (run true strict).result = .ok { e with learned := e.learned ++ extra } ∧
          ∀ n ∈ extra, ∃ a, ev.registry.find? predicate = some a ∧
            ∃ t ∈ e.answer.trueTuples,
              Invocation.DerivedFor ⟨a.signature, input⟩ table (run true strict).table i t n) ∧
      ∀ learning,
        (∀ p, (run learning true).result ≠ .error (.unexpectedUnknown p)) →
          run learning false = { run learning true with
            evaluator := (run learning true).evaluator.under ⟨learning, false⟩ } :=
  ⟨evaluate_learning, evaluate_lenient⟩

/-- Learning adds one nogood for the only tuple of the difference. -/
theorem settings_change_what_they_name_firstCall :
    let run := fun learning strict => (tester.under ⟨learning, strict⟩).evaluate "testSetMinus"
      [⟨0⟩, ⟨2⟩] (leftWhen .false) threeAtoms
    (∃ e, (run false true).result = .ok e ∧ e.learned = [] ∧
      (run true true).result = .ok { e with learned := [.ofList [⟨8⟩, ⟨11⟩, ⟨15⟩]] }) ∧
      (run true false).result = (run true true).result := by
  intro run
  obtain ⟨hlearning, hstrict⟩ := settings_change_what_they_name tester "testSetMinus" [⟨0⟩, ⟨2⟩]
    (leftWhen .false) threeAtoms
  obtain ⟨e, he, hnone⟩ : ∃ e, (run false true).result = .ok e ∧ e.learned = [] :=
    ⟨_, rfl, rfl⟩
  obtain ⟨e', he', hsome⟩ : ∃ e, (run true true).result = .ok e ∧
      e.learned = [.ofList [⟨8⟩, ⟨11⟩, ⟨15⟩]] := ⟨_, rfl, by decide⟩
  obtain ⟨extra, hextra, -⟩ := (hlearning (leftWhen_builtOn .false) true).2.2 e he
  obtain rfl := Except.ok.inj (he'.symm.trans hextra)
  rw [hnone, List.nil_append] at hsome hextra
  refine ⟨⟨e, he, hnone, hsome ▸ hextra⟩, ?_⟩
  have hlenient := hstrict true fun p hp => nomatch he'.symm.trans hp
  exact (congrArg Outcome.result hlenient :)

end Evaluate

end Evaluator

end ExternalAtoms
