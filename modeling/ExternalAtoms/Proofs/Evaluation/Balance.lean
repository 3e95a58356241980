import ExternalAtoms.Proofs.Evaluation.Failure
import ExternalAtoms.Proofs.Evaluation.Learned
import Mathlib.Algebra.GroupWithZero.Nat

/-! # What the counters of an evaluator add up to

The counters are written at different stages of a call. Over any run of calls they agree with what
the calls returned and with the log: every call is counted once, every nogood offered is either new
or a duplicate, and the new ones are those of the log. The counters are words, so all of this holds
modulo their size.
-/
namespace ExternalAtoms
open SymbolTable

theorem Signature.dropped_of_checkAnswer {s : Signature} {settings : Settings}
    {given answer : Answer} {dropped : Nat}
    (h : s.checkAnswer settings given = .ok (answer, dropped)) :
    dropped = (given.unknownTuples.toList.filter fun t => !answer.isUnknown t).length := by
  unfold checkAnswer at h
  dsimp only at h
  split at h
  · simp at h
  · split at h
    · obtain ⟨rfl, rfl⟩ := Prod.mk.inj (Except.ok.inj h)
      rw [eq_comm, List.length_eq_zero_iff, List.filter_eq_nil_iff]
      intro t ht
      simpa [Answer.isUnknown] using ht
    · split at h
      · simp at h
      · obtain ⟨rfl, rfl⟩ := Prod.mk.inj (Except.ok.inj h)
        rw [List.filter_eq_self.mpr, Std.ExtTreeSet.length_toList]
        intro t _
        simp [Answer.isUnknown, Answer.dropUnknown]

namespace ExternalAtom

def removed (a : ExternalAtom) (settings : Settings) (q : Query) (table : SymbolTable) :
    List Tuple :=
  match a.signature.checkInput table q.input, (a.ask q table).1 with
  | .ok (), .ok given =>
    match a.signature.checkAnswer settings given with
    | .ok (answer, _) => given.unknownTuples.toList.filter fun t => !answer.isUnknown t
    | .error _ => []
  | _, _ => []

theorem attempt_dropped (a : ExternalAtom) (settings : Settings) (q : Query)
    (table : SymbolTable) :
    (a.attempt settings q table).dropped = (a.removed settings q table).length := by
  unfold attempt removed
  cases hinput : a.signature.checkInput table q.input with
  | error e => simp
  | ok _ =>
    cases hgiven : (a.ask q table).1 with
    | error e => simp [hgiven]
    | ok given =>
      cases hanswer : a.signature.checkAnswer settings given with
      | error e => simp [hgiven, hanswer]
      | ok checked => simpa [hgiven, hanswer] using Signature.dropped_of_checkAnswer hanswer

end ExternalAtom

namespace Evaluator

section Learn
variable {ev : Evaluator} {derived : Bool} {offered : List Nogood}

def CountsLog (ev : Evaluator) : Prop :=
  ev.counters.nogoodsLearned + ev.counters.nogoodsDerived = .ofNat ev.log.size

/-- Only the counters of nogoods have changed, and together they have grown by this number. -/
structure CountsOffered (c c' : Counters) (count : Nat) : Prop where
  offered : c'.nogoodsLearned + c'.nogoodsDerived + c'.nogoodsDuplicate =
    c.nogoodsLearned + c.nogoodsDerived + c.nogoodsDuplicate + .ofNat count
  rest : c' = { c with
    nogoodsLearned := c'.nogoodsLearned
    nogoodsDerived := c'.nogoodsDerived
    nogoodsDuplicate := c'.nogoodsDuplicate }

theorem CountsOffered.trans {c c' c'' : Counters} {count count' : Nat}
    (h : CountsOffered c c' count) (h' : CountsOffered c' c'' count') :
    CountsOffered c c'' (count + count') := by
  refine ⟨?_, ?_⟩
  · rw [h'.offered, h.offered, UInt64.ofNat_add, UInt64.add_assoc]
  · rw [h'.rest, h.rest]

theorem learn_size (ev : Evaluator) (derived : Bool) (n : Nogood) :
    (ev.learn derived n).2.log.size =
      ev.log.size + if (ev.learn derived n).1 = true then 1 else 0 := by
  simp only [learn, NogoodLog.insert]
  split
  · rfl
  · exact Array.size_push _

theorem learn_countsOffered (ev : Evaluator) (derived : Bool) (n : Nogood) :
    CountsOffered ev.counters (ev.learn derived n).2.counters 1 := by
  have hrecord : ∀ fresh, CountsOffered ev.counters (ev.counters.recordNogood derived fresh) 1 := by
    intro fresh
    cases fresh <;> cases derived <;>
      exact ⟨by simp only [Counters.recordNogood]; grind, rfl⟩
  exact hrecord _

theorem learn_countsLog (h : ev.CountsLog) (n : Nogood) : (ev.learn derived n).2.CountsLog := by
  have hrecord : ∀ fresh, (ev.counters.recordNogood derived fresh).nogoodsLearned +
      (ev.counters.recordNogood derived fresh).nogoodsDerived =
        ev.counters.nogoodsLearned + ev.counters.nogoodsDerived +
          .ofNat (if fresh = true then 1 else 0) := by
    intro fresh
    cases fresh <;> cases derived <;> simp only [Counters.recordNogood] <;> grind
  rw [CountsLog, learn_size, UInt64.ofNat_add, ← show _ = UInt64.ofNat ev.log.size from h]
  exact hrecord _

theorem learnAll_countsOffered (ev : Evaluator) (derived : Bool) (offered : List Nogood) :
    CountsOffered ev.counters (ev.learnAll derived offered).2.counters offered.length := by
  induction offered generalizing ev with
  | nil => exact ⟨by simp [learnAll], rfl⟩
  | cons n rest ih =>
    rw [List.length_cons, Nat.add_comm]
    exact (ev.learn_countsOffered derived n).trans (ih _)

theorem learnAll_countsLog (h : ev.CountsLog) : (ev.learnAll derived offered).2.CountsLog := by
  induction offered generalizing ev with
  | nil => exact h
  | cons n rest ih => exact ih (learn_countsLog h n)

end Learn

namespace Call
variable {c : Call} {e : Evaluation}

def evaluation? (c : Call) : Option Evaluation := c.outcome.result.toOption

open scoped Classical in
/-- How many nogoods a successful call offers to the log: those that were accepted and, if it learns
from its answer, one for each true tuple. -/
noncomputable def offered (c : Call) : Nat :=
  match c.evaluation?, c.evaluator.registry.find? c.predicate with
  | some e, some a => (a.accepted c.query c.table).length +
      if a.Learns c.evaluator.settings c.query c.table then e.answer.trueTuples.size else 0
  | _, _ => 0

/-- The unknown tuples that the check of the answer has removed, whatever came after it. -/
def removed (c : Call) : List Tuple :=
  match c.evaluator.registry.find? c.predicate with
  | none => []
  | some a => a.removed c.evaluator.settings c.query c.table

theorem attempt_dropped (c : Call) : c.attempt.dropped = c.removed.length := by
  unfold attempt Evaluator.attempt removed
  cases c.evaluator.registry.find? c.predicate with
  | none => rfl
  | some a => exact a.attempt_dropped _ _ _

def counted (c : Call) : Evaluator :=
  { c.evaluator with counters := c.evaluator.counters.recordDropped c.removed.length }

theorem evaluator_of_error {f : EvaluationError} (he : c.outcome.result = .error f) :
    c.outcome.evaluator =
      { c.counted with counters := c.counted.counters.recordFailure } := by
  rw [counted, ← c.attempt_dropped]
  exact evaluate_evaluator_of_error he

theorem evaluator_of_draft {draft : Draft} (hd : c.attempt.result = .ok draft) :
    c.outcome.evaluator = (c.counted.commit draft).2 := by
  simp only [outcome, evaluate, counted, ← c.attempt_dropped]
  rw [show (c.evaluator.attempt c.predicate ⟨c.query.input, c.query.interpretation⟩
    c.table).result = .ok draft from hd]
  rfl

theorem countsLog (h : c.evaluator.CountsLog) : c.outcome.evaluator.CountsLog := by
  cases hd : c.attempt.result with
  | error f =>
    have he : c.outcome.result = .error f := by
      simp only [outcome, evaluate]
      rw [show (c.evaluator.attempt c.predicate ⟨c.query.input, c.query.interpretation⟩
        c.table).result = .error f from hd]
    rw [evaluator_of_error he]
    exact h
  | ok draft =>
    rw [evaluator_of_draft hd]
    exact learnAll_countsLog (@learnAll_countsLog c.counted false draft.submitted h)

theorem counters_of_ok (hr : Reaches .empty c.table) (he : c.outcome.result = .ok e) :
    ∃ counters, CountsOffered c.counted.counters counters c.offered ∧
      c.outcome.evaluator.counters =
        counters.recordEvaluation e.answer.trueTuples.size e.answer.unknownTuples.size := by
  obtain ⟨draft, hdraft, hanswer, -⟩ := outcome_ok he
  obtain ⟨a, hatom, hattempt⟩ := attempt_ok hdraft
  have hevaluator := evaluator_of_draft hdraft
  rw [hattempt] at hdraft
  have hoffered : c.offered = draft.submitted.length + draft.derived.length := by
    obtain ⟨hnone, hall⟩ := ExternalAtom.derivedFor_of_attempt hr hdraft .refl
    simp only [offered, evaluation?, he, Except.toOption, hatom, hanswer,
      ExternalAtom.accepted_of_attempt hdraft]
    split
    · next hl => rw [← (hall hl).length_eq, Std.ExtTreeSet.length_toList]
    · next hl => rw [hnone hl, List.length_nil]
  rw [hevaluator, hanswer, hoffered]
  exact ⟨_, (c.counted.learnAll_countsOffered false draft.submitted).trans
    (learnAll_countsOffered _ true draft.derived), rfl⟩

end Call

/-- The counters add up to what the calls have returned and to what the log holds. -/
structure Balance (calls : List Call) (ev : Evaluator) : Prop where
  evaluations : ev.counters.evaluations = .ofNat (calls.filterMap Call.evaluation?).length
  total : ev.counters.evaluations + ev.counters.failures = .ofNat calls.length
  log : ev.counters.nogoodsLearned + ev.counters.nogoodsDerived = .ofNat ev.log.size
  offered : ev.counters.nogoodsLearned + ev.counters.nogoodsDerived +
    ev.counters.nogoodsDuplicate = .ofNat (calls.map Call.offered).sum
  trueTuples : ev.counters.trueTuples =
    .ofNat ((calls.filterMap Call.evaluation?).map fun e => e.answer.trueTuples.size).sum
  unknownTuples : ev.counters.unknownTuples =
    .ofNat ((calls.filterMap Call.evaluation?).map fun e => e.answer.unknownTuples.size).sum
  droppedTuples : ev.counters.droppedTuples = .ofNat (calls.map fun c => c.removed.length).sum

theorem Balance.failed {calls : List Call} {c : Call} (h : Balance calls c.evaluator)
    {f : EvaluationError} (he : c.outcome.result = .error f) :
    Balance (c :: calls) c.outcome.evaluator := by
  have hnone : c.evaluation? = none := by simp [Call.evaluation?, he, Except.toOption]
  have hoffered : c.offered = 0 := by simp [Call.offered, hnone]
  have hafter : c.outcome.evaluator.counters = c.counted.counters.recordFailure :=
    congrArg Evaluator.counters (Call.evaluator_of_error he)
  refine ⟨?_, ?_, Call.countsLog h.log, ?_, ?_, ?_, ?_⟩ <;> rw [hafter]
  · rw [List.filterMap_cons_none hnone]
    exact h.evaluations
  · rw [List.length_cons, UInt64.ofNat_add, ← h.total, UInt64.add_assoc]
    rfl
  · rw [List.map_cons, List.sum_cons, hoffered, Nat.zero_add]
    exact h.offered
  · rw [List.filterMap_cons_none hnone]
    exact h.trueTuples
  · rw [List.filterMap_cons_none hnone]
    exact h.unknownTuples
  · rw [List.map_cons, List.sum_cons, Nat.add_comm, UInt64.ofNat_add, ← h.droppedTuples]
    rfl

theorem Balance.succeeded {calls : List Call} {c : Call} (h : Balance calls c.evaluator)
    (hr : Reaches .empty c.table) {e : Evaluation} (he : c.outcome.result = .ok e) :
    Balance (c :: calls) c.outcome.evaluator := by
  have hsome : c.evaluation? = some e := by simp [Call.evaluation?, he, Except.toOption]
  obtain ⟨counters, hcounters, hafter⟩ := Call.counters_of_ok hr he
  have hrest := hcounters.rest
  have htotal : counters.evaluations + counters.failures = .ofNat calls.length := by
    rw [hrest]
    exact h.total
  refine ⟨?_, ?_, Call.countsLog h.log, ?_, ?_, ?_, ?_⟩ <;> rw [hafter]
  · rw [List.filterMap_cons_some hsome, List.length_cons, UInt64.ofNat_add, ← h.evaluations, hrest]
    rfl
  · rw [List.length_cons, Nat.add_comm, UInt64.ofNat_add, ← htotal, ← UInt64.add_assoc,
      UInt64.add_comm (UInt64.ofNat 1)]
    rfl
  · rw [List.map_cons, List.sum_cons, Nat.add_comm, UInt64.ofNat_add, ← h.offered]
    exact hcounters.offered
  · rw [List.filterMap_cons_some hsome, List.map_cons, List.sum_cons, Nat.add_comm,
      UInt64.ofNat_add, ← h.trueTuples, hrest]
    rfl
  · rw [List.filterMap_cons_some hsome, List.map_cons, List.sum_cons, Nat.add_comm,
      UInt64.ofNat_add, ← h.unknownTuples, hrest]
    rfl
  · rw [List.map_cons, List.sum_cons, Nat.add_comm, UInt64.ofNat_add, ← h.droppedTuples, hrest]
    rfl

/-- In every run of calls on a fresh evaluator the counters balance. -/
theorem counters_balance {calls : List Call} {ev : Evaluator} {table : SymbolTable}
    (h : Session calls ev table) : Balance calls ev := by
  induction h with
  | start settings ht => exact ⟨rfl, rfl, rfl, rfl, rfl, rfl, rfl⟩
  | store request _ ih => exact ih
  | register p _ ih =>
    exact ⟨ih.evaluations, ih.total, ih.log, ih.offered, ih.trueTuples, ih.unknownTuples,
      ih.droppedTuples⟩
  | @evaluate calls ev table predicate q h ih =>
    cases he : (Call.outcome ⟨ev, predicate, q, table⟩).result with
    | error f => exact ih.failed he
    | ok e => exact ih.succeeded h.reached he

/-- Two successful calls, with two nogoods submitted and one derived. -/
theorem counters_balance_twoCalls :
    Balance [Sample.secondCall, Sample.firstCall] Sample.secondCall.outcome.evaluator ∧
      Sample.secondCall.outcome.evaluator.counters =
        { evaluations := 2, trueTuples := 3, nogoodsLearned := 2, nogoodsDerived := 1 } :=
  ⟨counters_balance Sample.twoCalls, rfl⟩

end Evaluator

end ExternalAtoms
