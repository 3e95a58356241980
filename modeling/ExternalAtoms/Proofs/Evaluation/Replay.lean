import ExternalAtoms.Proofs.Evaluation.Draft
import ExternalAtoms.Proofs.Evaluation.Premise
import ExternalAtoms.Proofs.Evaluation.Session
import ExternalAtoms.Proofs.Retrieval.Replay

/-! # Evaluating again

When the program of an atom can be run again, so can its evaluation. Every stage of a successful
attempt does at any later time what it did, without storing anything, and the nogoods of its draft
are in the log by then. So the same call returns the same, except that nothing is new any more.
-/
namespace ExternalAtoms
open SymbolTable

namespace Properties
variable {table later : SymbolTable}

theorem premiseAt_again (p : Properties) (index : Nat) (predicate : Symbol)
    {entries : List (Symbol × Truth)} (hheads : ∀ entry ∈ entries, ∃ q, table.HeadOf entry.1 q)
    (hg : Grows table later) :
    p.premiseAt index predicate entries later =
      ((p.premiseAt index predicate entries table).1, later) := by
  refine Prod.ext ?_ (p.premiseAt_table index predicate fun entry he =>
    (hheads entry he).imp fun _ hq => hq.extend hg)
  induction entries with
  | nil => rfl
  | cons entry rest ih =>
    obtain ⟨q, hq⟩ := hheads entry List.mem_cons_self
    have hrest := ih fun entry he => hheads entry (List.mem_cons_of_mem _ he)
    rw [premiseAt_cons, premiseAt_cons, show table.head entry.1 = (some q, table) from hq,
      show later.head entry.1 = (some q, later) from hq.extend hg]
    split
    · rw [hrest]
    · exact hrest

end Properties

theorem Signature.premiseFrom_again (s : Signature) {i : Interpretation} {table later : SymbolTable}
    (index : Nat) (input : List Symbol)
    (hheads : ∀ entry ∈ i.atoms.toList, ∃ q, table.HeadOf entry.1 q) (hg : Grows table later) :
    s.premiseFrom i index input later = ((s.premiseFrom i index input table).1, later) := by
  induction input generalizing index with
  | nil => rfl
  | cons arg rest ih =>
    have hhere := s.properties.premiseAt_table index arg hheads
    have hagain := s.properties.premiseAt_again index arg hheads hg
    simp only [premiseFrom]
    split
    · rw [hagain]
      dsimp only
      split
      · rfl
      · rw [hhere, ih]
    · exact ih _

namespace Invocation
variable {call : Invocation} {i : Interpretation} {answer : Answer} {table later : SymbolTable}

theorem premise_again (hi : i.Snapshot table) (hg : Grows table later) :
    call.premise i later = ((call.premise i table).1, later) :=
  call.signature.premiseFrom_again 0 call.input
    (fun entry he => (hi.headed entry.1 entry.2 ((hi.mem_atoms _ _).mp he)).2) hg

theorem deriveNogoods_again (ha : Admits table) (hi : i.Snapshot table) {tuples : List Tuple}
    {derived : List Nogood} (h : (call.deriveNogoods i tuples table).1 = .ok derived)
    (hg : Grows (call.deriveNogoods i tuples table).2 later) :
    call.deriveNogoods i tuples later = (.ok derived, later) := by
  have hl := ((call.deriveNogoods_reaches i tuples table).grows ha).trans hg
  have hscanned := ((call.premise_reaches i table).grows ha).admits ha
  unfold deriveNogoods at h hg ⊢
  rw [premise_again hi hl]
  dsimp only at h hg ⊢
  cases hp : (call.premise i table).1 with
  | none =>
    simp only [hp] at h
    rw [h]
  | some premise =>
    simp only [hp] at h hg ⊢
    cases hs : (call.storeOutputAtoms (call.premise i table).2 tuples).1 with
    | error e => simp [hs, Except.map] at h
    | ok outputs =>
      rw [hs] at h
      rw [storeOutputAtoms_again hscanned hs hg]
      exact Prod.ext h rfl

theorem storeAnswer_again (ha : Admits table) {reported : Truth}
    {outputs : List (Symbol × Truth)}
    (h : (call.storeAnswer answer reported table).1 = .ok outputs)
    (hg : Grows (call.storeAnswer answer reported table).2 later) :
    call.storeAnswer answer reported later = (.ok outputs, later) := by
  have hsettles := call.storeOutputAtoms_reaches table answer.trueTuples.toList
  unfold storeAnswer at h hg ⊢
  dsimp only at h hg ⊢
  cases hs : (call.storeOutputAtoms table answer.trueTuples.toList).1 with
  | error e => simp [hs] at h
  | ok settled =>
    simp only [hs] at h hg
    have hmiddle := (hsettles.grows ha).admits ha
    have hunsettles := call.storeOutputAtoms_reaches
      (call.storeOutputAtoms table answer.trueTuples.toList).2 answer.unknownTuples.toList
    cases hu : (call.storeOutputAtoms (call.storeOutputAtoms table answer.trueTuples.toList).2
        answer.unknownTuples.toList).1 with
    | error e => simp [hu, Except.map] at h
    | ok unsettled =>
      rw [hu] at h
      simp only [storeOutputAtoms_again ha hs ((hunsettles.grows hmiddle).trans hg),
        storeOutputAtoms_again hmiddle hu hg]
      exact Prod.ext h rfl

theorem learned_again (ha : Admits table) (hi : i.Snapshot table) {learns : Bool}
    {tuples : List Tuple} {derived : List Nogood}
    (h : (if learns then call.deriveNogoods i tuples table else (.ok [], table)).1 = .ok derived)
    (hg : Grows (if learns then call.deriveNogoods i tuples table else (.ok [], table)).2 later) :
    (if learns then call.deriveNogoods i tuples later else (.ok [], later)) =
      (.ok derived, later) := by
  cases learns with
  | «true» => exact deriveNogoods_again ha hi h hg
  | «false» => exact Prod.ext h rfl

theorem conclude_again (ha : Admits table) (hi : i.Snapshot table) {settings : Settings}
    {submitted : List Nogood} {draft : Draft}
    (h : (call.conclude settings i answer submitted table).1 = .ok draft)
    (hg : Grows (call.conclude settings i answer submitted table).2 later) :
    call.conclude settings i answer submitted later = (.ok draft, later) := by
  have hreaches : Reaches table (if call.learns settings then
      call.deriveNogoods i answer.trueTuples.toList table else (.ok [], table)).2 := by
    split
    · exact call.deriveNogoods_reaches i _ table
    · exact .refl
  have hagain := fun derived => @learned_again call i table later ha hi (call.learns settings)
    answer.trueTuples.toList derived
  unfold conclude at h hg ⊢
  dsimp only at h hg ⊢
  -- from here on it does not matter what was learned, only that it is learned again
  generalize (if call.learns settings then
    call.deriveNogoods i answer.trueTuples.toList table else (.ok [], table)) = learned at *
  have hmiddle := (hreaches.grows ha).admits ha
  cases hd : learned.1 with
  | error e => simp [hd] at h
  | ok derived =>
    simp only [hd] at h hg
    have hstores := call.storeAnswer_reaches answer
      (if call.isProvisional i then .unknown else .true) learned.2
    cases hs : (call.storeAnswer answer (if call.isProvisional i then .unknown else .true)
        learned.2).1 with
    | error e => simp [hs] at h
    | ok outputs =>
      simp only [hs] at h hg
      simp only [hagain derived hd ((hstores.grows hmiddle).trans hg),
        storeAnswer_again hmiddle hs hg]
      exact Prod.ext h rfl

end Invocation

theorem ExternalAtom.attempt_again {a : ExternalAtom} {settings : Settings} {q : Query}
    {table later : SymbolTable} {draft : Draft} (hi : q.interpretation.BuiltOn table)
    (hrepeats : (a.retrieve q).Repeats q.interpretation)
    (h : (a.attempt settings q table).result = .ok draft)
    (hg : Grows (a.attempt settings q table).table later) :
    ∃ dropped, a.attempt settings q later = ⟨.ok draft, dropped, later⟩ := by
  obtain ⟨given, dropped, hinput, hgiven, hanswer, hconclude⟩ := attempt_ok h
  have hasked := hi.extend (a.ask_reaches q table)
  have hreaches := Invocation.conclude_reaches ⟨a.signature, q.input⟩ settings q.interpretation
    draft.answer (a.ask q table).2.pending.toList (a.ask q table).2.table
  rw [hconclude] at hreaches
  have hlater := (hreaches.grows hasked.reached.admits).trans hg
  have hagain : a.ask q later = (.ok given, ⟨later, (a.ask q table).2.pending⟩) :=
    hrepeats ⟨a.signature, q.input⟩ (.ofTable table) given (a.ask q table).2 hi
      (Prod.ext hgiven rfl) later hlater
  have hinput' := Signature.checkInput_extends
    ((a.ask_reaches q table).toExtends.trans hlater.toExtends) hinput
  have hconclude' := Invocation.conclude_again hasked.reached.admits hasked.snapshot
    (congrArg Prod.fst hconclude) (by rwa [hconclude])
  refine ⟨dropped, ?_⟩
  simp only [attempt, hinput', hagain, hanswer, hconclude']

/-- A nogood that is in the log already, or can never be in it, leaves the log as it is. -/
theorem NogoodLog.insert_old {log : NogoodLog} {n : Nogood} (h : n.Proper → n ∈ log.toList) :
    log.insert n = (false, log) := by
  have hold : (log.insert n).1 ≠ true := by
    intro hnew
    obtain ⟨hproper, hmem⟩ := insert_fst_iff.mp hnew
    exact hmem (h hproper)
  unfold insert at hold ⊢
  split
  · rfl
  · next hnew =>
    rw [if_neg hnew] at hold
    exact absurd rfl hold

namespace Evaluator
variable {n : Nogood}

/-- The log holds what a draft offers to it, as far as it can hold it. -/
def Knows (ev : Evaluator) (draft : Draft) : Prop :=
  ∀ n, n ∈ draft.submitted ∨ n ∈ draft.derived → n.Proper → n ∈ ev.log.toList

theorem learnAll_old (derived : Bool) {offered : List Nogood} (ev : Evaluator)
    (h : ∀ n ∈ offered, n.Proper → n ∈ ev.log.toList) :
    ∃ counters, ev.learnAll derived offered = ([], { ev with counters }) := by
  induction offered generalizing ev with
  | nil => exact ⟨ev.counters, rfl⟩
  | cons n rest ih =>
    obtain ⟨hn, hrest⟩ := List.forall_mem_cons.mp h
    have hlearn : ev.learn derived n =
        (false, { ev with counters := ev.counters.recordNogood derived false }) := by
      simp only [learn, NogoodLog.insert_old hn]
    obtain ⟨counters, hothers⟩ :=
      ih { ev with counters := ev.counters.recordNogood derived false } hrest
    refine ⟨counters, ?_⟩
    simp only [learnAll, hlearn, hothers, Bool.false_eq_true, if_false]

section Evaluate
variable {ev : Evaluator} {predicate : String} {input : List Symbol} {i : Interpretation}
  {table later : SymbolTable} {draft : Draft}

/-- A draft that offers nothing new is presented with nothing learned, and only counted. -/
theorem evaluate_of_knows {dropped : Nat}
    (hd : ev.attempt predicate ⟨input, i⟩ table = ⟨.ok draft, dropped, later⟩)
    (hold : ev.Knows draft) :
    ∃ counters, ev.evaluate predicate input i table =
      ⟨.ok ⟨draft.answer, draft.outputs, [], draft.provisional⟩, { ev with counters }, later⟩ := by
  obtain ⟨counters, hsubmitted⟩ := learnAll_old false
    { ev with counters := ev.counters.recordDropped dropped } fun n hn => hold n (Or.inl hn)
  obtain ⟨counters', hderived⟩ := learnAll_old true { ev with counters }
    fun n hn => hold n (Or.inr hn)
  simp only [evaluate, hd, commit, hsubmitted, hderived]
  exact ⟨_, rfl⟩

theorem mem_log_evaluate (hn : n ∈ ev.log.toList) :
    n ∈ (ev.evaluate predicate input i table).evaluator.log.toList := by
  cases hd : (ev.attempt predicate ⟨input, i⟩ table).result with
  | error e =>
    simp only [evaluate, hd]
    exact hn
  | ok draft => exact (mem_log_iff hd).mpr (Or.inl hn)

end Evaluate

variable {calls : List Call} {ev : Evaluator} {table : SymbolTable} {c : Call}

theorem Session.remembers (h : Session calls ev table) : ∀ c ∈ calls,
    ev.settings = c.evaluator.settings ∧
      ∀ n ∈ c.outcome.evaluator.log.toList, n ∈ ev.log.toList := by
  induction h with
  | start settings ht => simp
  | store request _ ih => exact ih
  | register p _ ih => exact ih
  | @evaluate calls ev table predicate q _ ih =>
    have hsettings := (evaluate_registry ev predicate q.input q.interpretation table).2
    intro c hc
    rcases List.mem_cons.mp hc with rfl | hc
    · exact ⟨hsettings, fun n hn => hn⟩
    · exact ⟨hsettings.trans (ih c hc).1, fun n hn => mem_log_evaluate ((ih c hc).2 n hn)⟩

/-- A call of an atom that can be asked again returns at any later time of the session what it
returned, learns nothing and leaves the table and the evaluator, up to its counters. -/
theorem Session.replay (h : Session calls ev table) (hc : c ∈ calls) {a : ExternalAtom}
    (hatom : c.evaluator.registry.find? c.predicate = some a)
    (hi : c.query.interpretation.BuiltOn c.table)
    (hrepeats : (a.retrieve c.query).Repeats c.query.interpretation) {e : Evaluation}
    (he : c.outcome.result = .ok e) :
    ∃ counters, Call.outcome ⟨ev, c.predicate, c.query, table⟩ =
      ⟨.ok { e with learned := [] }, { ev with counters }, table⟩ := by
  obtain ⟨draft, hdraft, hanswer, houtputs, hprovisional⟩ := Call.outcome_ok he
  obtain ⟨hsettings, hlog⟩ := h.remembers c hc
  have hkept := h.kept c hc
  have hknows : ev.Knows draft := fun n hn hproper =>
    hlog n ((mem_log_iff hdraft).mpr (Or.inr ⟨hproper, hn⟩))
  have hlater := hkept.reaches.grows (hi.extend c.outcome_reaches).reached.admits
  obtain ⟨a', hatom', hattempt⟩ := Call.attempt_ok hdraft
  obtain rfl := Option.some.inj (hatom.symm.trans hatom')
  rw [c.outcome_table, hattempt] at hlater
  rw [hattempt] at hdraft
  obtain ⟨dropped, hagain⟩ := ExternalAtom.attempt_again hi hrepeats hdraft hlater
  have hattempt' : ev.attempt c.predicate c.query table = ⟨.ok draft, dropped, table⟩ := by
    simp only [attempt, hkept.find _ _ hatom, hsettings, hagain]
  obtain ⟨counters, houtcome⟩ := evaluate_of_knows hattempt' hknows
  refine ⟨counters, ?_⟩
  rw [Call.outcome, houtcome, hanswer, houtputs, hprovisional]

end Evaluator

end ExternalAtoms
