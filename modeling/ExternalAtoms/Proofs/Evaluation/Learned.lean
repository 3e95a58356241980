import ExternalAtoms.Proofs.Evaluation.Premise
import ExternalAtoms.Proofs.Evaluation.Session
import ExternalAtoms.Proofs.Evaluation.Success
import ExternalAtoms.Proofs.Traversal

/-! # What an evaluation learns

An evaluation offers the nogoods that were accepted while the atom answered, and after them one for
each true tuple, unless learning is off or an undecided input atom blocks it. A derived nogood has
the literals that may have made the tuple true and the complement of its output atom. Of what is
offered the log gets, in this order, what it does not have yet and what can apply at all. None of
this needs a bound on the size of the table.
-/
namespace ExternalAtoms
open SymbolTable

theorem Properties.contribution_eq_literal_iff {p : Properties} {index : Nat} {a : Symbol}
    {v : Truth} {l : Symbol} : p.contribution index a v = .literal l ↔
      v = .true ∧ p.isAntimonotonic index = false ∧ a = l ∨
        v = .false ∧ p.isMonotonic index = false ∧ a.flip = l := by
  cases v <;> simp only [contribution] <;> split <;> simp_all

namespace Invocation

/-- A predicate input that is not monotonic has an undecided atom. -/
def Blocked (call : Invocation) (table : SymbolTable) (i : Interpretation) : Prop :=
  ∃ index a, call.ListedAtom table i index a .unknown ∧
    call.signature.properties.isMonotonic index = false

/-- This is a true atom of a predicate input that is not antimonotonic, or the complement of a false
atom of one that is not monotonic. -/
def JustifyingLiteral (call : Invocation) (table : SymbolTable) (i : Interpretation)
    (l : Symbol) : Prop :=
  ∃ index a,
    call.ListedAtom table i index a .true ∧
        call.signature.properties.isAntimonotonic index = false ∧ a = l ∨
      call.ListedAtom table i index a .false ∧
        call.signature.properties.isMonotonic index = false ∧ a.flip = l

/-- The nogood has the justifying literals and the complement of the output atom of the tuple. -/
def DerivedFor (call : Invocation) (table later : SymbolTable) (i : Interpretation) (t : Tuple)
    (n : Nogood) : Prop :=
  ∃ o, call.OutputOf later t o ∧
    ∀ l, l ∈ n.literals ↔ l = o.flip ∨ call.JustifyingLiteral table i l

variable {call : Invocation} {table later : SymbolTable} {i : Interpretation}

theorem blocked_of_collects {found : Option (List Symbol)}
    (h : call.signature.properties.Collects (call.ListedAtom table i) found) :
    (found = none ∧ call.Blocked table i) ∨ ∃ literals, found = some literals ∧
      ¬call.Blocked table i ∧ ∀ l, l ∈ literals ↔ call.JustifyingLiteral table i l := by
  cases found with
  | none =>
    obtain ⟨index, a, v, hlisted, hu⟩ := h
    obtain ⟨rfl, hm⟩ := Properties.contribution_eq_undecided_iff.mp hu
    exact Or.inl ⟨rfl, index, a, hlisted, hm⟩
  | some literals =>
    refine Or.inr ⟨literals, rfl, ?_, fun l => ?_⟩
    · rintro ⟨index, a, hlisted, hm⟩
      exact h.1 index a _ hlisted (Properties.contribution_eq_undecided_iff.mpr ⟨rfl, hm⟩)
    · rw [h.2]
      constructor
      · rintro ⟨index, a, v, hlisted, hl⟩
        rcases Properties.contribution_eq_literal_iff.mp hl with ⟨rfl, hd⟩ | ⟨rfl, hd⟩
        · exact ⟨index, a, Or.inl ⟨hlisted, hd⟩⟩
        · exact ⟨index, a, Or.inr ⟨hlisted, hd⟩⟩
      · rintro ⟨index, a, ⟨hlisted, hd⟩ | ⟨hlisted, hd⟩⟩
        · exact ⟨index, a, _, hlisted,
            Properties.contribution_eq_literal_iff.mpr (Or.inl ⟨rfl, hd⟩)⟩
        · exact ⟨index, a, _, hlisted,
            Properties.contribution_eq_literal_iff.mpr (Or.inr ⟨rfl, hd⟩)⟩

theorem derivedFor_of_deriveNogoods (ha : Admits table)
    (hknown : ∀ entry ∈ i.atoms.toList, (table.isAtom entry.1).1 = true ∨
      ∀ arg ∈ call.input, table.isKnown arg = true)
    {tuples : List Tuple} {derived : List Nogood}
    (h : (call.deriveNogoods i tuples table).1 = .ok derived)
    (hg : Grows (call.deriveNogoods i tuples table).2 later) :
    call.Blocked (call.premise i table).2 i ∧ derived = [] ∨
      ¬call.Blocked (call.premise i table).2 i ∧
        List.Forall₂ (call.DerivedFor (call.premise i table).2 later i) tuples derived := by
  have hscan := call.premise_collects_listed ha hknown (.refl _)
  have hscanned := ((call.premise_reaches i table).grows ha).admits ha
  unfold deriveNogoods at h hg
  dsimp only at h hg
  rcases blocked_of_collects hscan with ⟨hnone, hblocked⟩ | ⟨premise, hsome, hfree, hliterals⟩
  · rw [hnone] at h
    exact Or.inl ⟨hblocked, (Except.ok.inj h).symm⟩
  · simp only [hsome] at h hg
    refine Or.inr ⟨hfree, ?_⟩
    cases hs : (call.storeOutputAtoms (call.premise i table).2 tuples).1 with
    | error e => simp [hs, Except.map] at h
    | ok outputs =>
      simp only [hs, Except.map, Except.ok.injEq] at h
      subst h
      refine List.forall₂_map_right_iff.mpr ((storeOutputAtoms_outputOf hscanned hs hg).imp ?_)
      intro t o ho
      refine ⟨o, ho, fun l => ?_⟩
      rw [justify, Nogood.mem_ofList, List.mem_append, List.mem_singleton, hliterals]
      exact or_comm

theorem ListedAtom.iff_of_snapshot (hi : i.Snapshot table) (hg : Grows table later) {index : Nat}
    {a : Symbol} {v : Truth} :
    call.ListedAtom later i index a v ↔ call.ListedAtom table i index a v := by
  constructor
  · rintro ⟨p, hp, hk, hhead, hv⟩
    exact ⟨p, hp, hk, hi.headOf_of_grows hg ((hi.mem_atoms a v).mp hv) hhead, hv⟩
  · rintro ⟨p, hp, hk, hhead, hv⟩
    exact ⟨p, hp, hk, hhead.extend hg, hv⟩

end Invocation

namespace ExternalAtom
variable {a : ExternalAtom} {settings : Settings} {q : Query} {table later : SymbolTable}
  {draft : Draft}

def scanned (a : ExternalAtom) (q : Query) (table : SymbolTable) : SymbolTable :=
  (Invocation.premise ⟨a.signature, q.input⟩ q.interpretation (a.ask q table).2.table).2

/-- Learning is on, and no undecided input atom blocks it. -/
def Learns (a : ExternalAtom) (settings : Settings) (q : Query) (table : SymbolTable) : Prop :=
  settings.learning = true ∧ a.signature.properties.learning = true ∧
    ¬Invocation.Blocked ⟨a.signature, q.input⟩ (a.scanned q table) q.interpretation

theorem accepted_of_attempt (h : (a.attempt settings q table).result = .ok draft) :
    draft.submitted = a.accepted q table :=
  (submitted_of_attempt h).trans (a.pending_ask q table)

theorem derivedFor_of_attempt (hr : Reaches .empty table)
    (h : (a.attempt settings q table).result = .ok draft)
    (hg : Grows (a.attempt settings q table).table later) :
    (¬a.Learns settings q table → draft.derived = []) ∧
      (a.Learns settings q table → List.Forall₂ (Invocation.DerivedFor ⟨a.signature, q.input⟩
        (a.scanned q table) later q.interpretation) draft.answer.trueTuples.toList
          draft.derived) := by
  have hasked := hr.trans (a.ask_reaches q table)
  obtain ⟨given, dropped, hinput, -, -, hconclude⟩ := attempt_ok h
  obtain ⟨-, -, -, hderived⟩ := Invocation.conclude_ok (congrArg Prod.fst hconclude)
  rw [hconclude] at hderived
  rcases hderived with ⟨hoff, hnone⟩ | ⟨hon, hsome, hstored⟩
  · refine ⟨fun _ => hnone, ?_⟩
    rintro ⟨hsettings, hproperties, -⟩
    simp [Invocation.learns, hsettings, hproperties] at hoff
  · have hlearned := hasked.trans (Invocation.deriveNogoods_reaches ⟨a.signature, q.input⟩
      q.interpretation draft.answer.trueTuples.toList (a.ask q table).2.table)
    have hlater := (hstored.grows hlearned.admits).trans hg
    obtain ⟨hsettings, hproperties⟩ := Bool.and_eq_true_iff.mp hon
    have hknown := fun arg harg => ((Signature.usable_of_checkInput hinput arg harg).extend
      (a.ask_reaches q table).toExtends).2
    rcases Invocation.derivedFor_of_deriveNogoods hasked.admits (fun _ _ => Or.inr hknown) hsome
      hlater with ⟨hblocked, hnone⟩ | ⟨hfree, hall⟩
    · exact ⟨fun _ => hnone, fun hl => absurd hblocked hl.2.2⟩
    · exact ⟨fun hl => absurd ⟨hsettings, hproperties, hfree⟩ hl, fun _ => hall⟩

end ExternalAtom

/-- What a log does not have yet of the nogoods offered to it, in their order. Those that can never
apply are left out, and so are repetitions. -/
def NogoodLog.news (log : NogoodLog) (offered : List Nogood) : List Nogood :=
  (offered.filter fun n => (∀ l ∈ n.literals, l.flip ∉ n.literals) ∧ n ∉ log.toList).eraseDups

namespace NogoodLog
variable {log later : NogoodLog} {n : Nogood} {offered : List Nogood}

theorem mem_news : n ∈ log.news offered ↔
    n ∈ offered ∧ (∀ l ∈ n.literals, l.flip ∉ n.literals) ∧ n ∉ log.toList := by
  simp [news]

theorem news_cons_of_new (hn : (∀ l ∈ n.literals, l.flip ∉ n.literals) ∧ n ∉ log.toList)
    (hlater : later.toList = log.toList ++ [n]) :
    log.news (n :: offered) = n :: later.news offered := by
  rw [news, List.filter_cons_of_pos (by simpa using hn), List.eraseDups_cons, List.filter_filter,
    news]
  congr 2
  refine List.filter_congr fun m _ => ?_
  simp only [hlater, List.mem_append, List.mem_singleton]
  grind

theorem news_cons_of_old (hn : ¬((∀ l ∈ n.literals, l.flip ∉ n.literals) ∧ n ∉ log.toList)) :
    log.news (n :: offered) = log.news offered := by
  rw [news, List.filter_cons_of_neg (by simpa using hn), news]

theorem news_append {others : List Nogood}
    (hlater : later.toList = log.toList ++ log.news offered) :
    log.news (offered ++ others) = log.news offered ++ later.news others := by
  rw [news, List.filter_append, List.eraseDups_append]
  refine congrArg₂ _ rfl (congrArg _ ?_)
  rw [List.removeAll, List.filter_filter]
  refine List.filter_congr fun m _ => ?_
  simp only [hlater, List.mem_append, mem_news]
  grind

end NogoodLog

namespace Evaluator

theorem learnAll_eq_news {derived : Bool} {offered : List Nogood}
    (hoffered : ∀ n ∈ offered, n.literals ≠ []) (ev : Evaluator) :
    (ev.learnAll derived offered).1 = ev.log.news offered ∧
      (ev.learnAll derived offered).2.log.toList = ev.log.toList ++ ev.log.news offered := by
  induction offered generalizing ev with
  | nil => simp [learnAll, NogoodLog.news]
  | cons n rest ih =>
    obtain ⟨hne, hrest⟩ := List.forall_mem_cons.mp hoffered
    have hnew := @learn_fst_iff ev derived n
    rw [Nogood.Proper, and_iff_right hne] at hnew
    have hlog := ev.learn_log derived n
    obtain ⟨hfst, hsnd⟩ := ih hrest (ev.learn derived n).2
    simp only [learnAll]
    rw [hfst, hsnd]
    split
    · next hfresh =>
      rw [if_pos hfresh] at hlog
      rw [NogoodLog.news_cons_of_new (hnew.mp hfresh) hlog, hlog]
      simp
    · next hold =>
      rw [if_neg hold] at hlog
      rw [NogoodLog.news_cons_of_old (fun h => hold (hnew.mpr h))]
      simp [NogoodLog.news, hlog]

section Evaluate
variable {ev : Evaluator} {predicate : String} {input : List Symbol} {i : Interpretation}
  {table : SymbolTable} {a : ExternalAtom} {e : Evaluation}

theorem evaluate_news (hatom : ev.registry.find? predicate = some a) (hr : Reaches .empty table)
    (he : (ev.evaluate predicate input i table).result = .ok e) :
    ∃ draft, (a.attempt ev.settings ⟨input, i⟩ table).result = .ok draft ∧
      e.answer = draft.answer ∧
      e.learned = ev.log.news (a.accepted ⟨input, i⟩ table ++ draft.derived) ∧
      (ev.evaluate predicate input i table).evaluator.log.toList =
        ev.log.toList ++ e.learned := by
  cases hd : (a.attempt ev.settings ⟨input, i⟩ table).result with
  | error f => simp [evaluate, attempt, hatom, hd] at he
  | ok draft =>
    simp only [evaluate, attempt, hatom, hd, Except.ok.injEq] at he ⊢
    subst he
    refine ⟨draft, rfl, rfl, ?_⟩
    have haccepted : ∀ n ∈ a.accepted ⟨input, i⟩ table, n.literals ≠ [] := fun n hn =>
      Retrieval.literals_of_accepted _ hn
    have hderived : ∀ n ∈ draft.derived, n.literals ≠ [] := by
      obtain ⟨hnone, hall⟩ := ExternalAtom.derivedFor_of_attempt hr hd .refl
      intro n hn
      by_cases hl : a.Learns ev.settings ⟨input, i⟩ table
      · obtain ⟨t, -, o, -, hliterals⟩ := exists_of_mem_forall₂ (hall hl) hn
        exact List.ne_nil_of_mem ((hliterals o.flip).mpr (Or.inl rfl))
      · simp [hnone hl] at hn
    obtain ⟨hfirst, hmiddle⟩ := learnAll_eq_news haccepted { ev with
      counters := ev.counters.recordDropped (a.attempt ev.settings ⟨input, i⟩ table).dropped }
    obtain ⟨hsecond, hlast⟩ := learnAll_eq_news hderived (learnAll { ev with
      counters := ev.counters.recordDropped (a.attempt ev.settings ⟨input, i⟩ table).dropped }
        false (a.accepted ⟨input, i⟩ table)).2
    simp only [commit, ExternalAtom.accepted_of_attempt hd]
    rw [hlast, hmiddle, hfirst, hsecond, NogoodLog.news_append hmiddle, List.append_assoc]
    exact ⟨rfl, rfl⟩

/-- A successful evaluation adds to the log what it says it learned: what is new of the nogoods that
were accepted and of those derived from the true tuples. -/
theorem learned_exactly (hatom : ev.registry.find? predicate = some a) (hi : i.BuiltOn table)
    (he : (ev.evaluate predicate input i table).result = .ok e) :
    let call : Invocation := ⟨a.signature, input⟩
    let after := ev.evaluate predicate input i table
    after.evaluator.log.toList = ev.log.toList ++ e.learned ∧
      ∃ derived, e.learned = ev.log.news (a.accepted ⟨input, i⟩ table ++ derived) ∧
        (ev.settings.learning = false ∨ a.signature.properties.learning = false ∨
          call.Blocked table i → derived = []) ∧
        (ev.settings.learning = true → a.signature.properties.learning = true →
          ¬call.Blocked table i → List.Forall₂ (call.DerivedFor table after.table i)
            e.answer.trueTuples.toList derived) := by
  intro call after
  obtain ⟨draft, hd, hanswer, hlearned, hlog⟩ := evaluate_news hatom hi.reached he
  have htable : after.table = (a.attempt ev.settings ⟨input, i⟩ table).table := by
    simp only [after, evaluate_table, attempt, hatom]
  obtain ⟨hnone, hall⟩ := ExternalAtom.derivedFor_of_attempt hi.reached hd .refl
  -- The heads of all atoms are stored, so the scan finds the atoms that the table before has.
  have hscanned : Grows table (a.scanned ⟨input, i⟩ table) :=
    ((a.ask_reaches ⟨input, i⟩ table).trans (call.premise_reaches i _)).grows hi.reached.admits
  have hlisted : call.ListedAtom (a.scanned ⟨input, i⟩ table) i = call.ListedAtom table i := by
    funext index b v
    exact propext (Invocation.ListedAtom.iff_of_snapshot hi.snapshot hscanned)
  have hblocked : call.Blocked (a.scanned ⟨input, i⟩ table) i ↔ call.Blocked table i := by
    simp only [Invocation.Blocked, hlisted]
  refine ⟨hlog, draft.derived, hlearned, fun hoff => hnone ?_,
    fun hsettings hproperties hfree => ?_⟩
  · rintro ⟨hsettings, hproperties, hfree⟩
    rw [hblocked] at hfree
    simp [hsettings, hproperties, hfree] at hoff
  · rw [hanswer, htable]
    refine (hall ⟨hsettings, hproperties, hblocked.not.mpr hfree⟩).imp ?_
    rintro t n ⟨o, ho, hliterals⟩
    refine ⟨o, ho, fun l => ?_⟩
    rw [hliterals, Invocation.JustifyingLiteral, hlisted]
    rfl

end Evaluate

/-- The difference is `a` alone, and for it one nogood is learned. -/
theorem learned_exactly_firstCall :
    ∃ a e derived, Sample.tester.registry.find? "testSetMinus" = some a ∧
      Sample.firstCall.outcome.result = .ok e ∧ e.learned = [.ofList [⟨8⟩, ⟨11⟩, ⟨15⟩]] ∧
      e.learned = NogoodLog.empty.news derived ∧
      List.Forall₂ (Invocation.DerivedFor ⟨a.signature, [⟨0⟩, ⟨2⟩]⟩ Sample.threeAtoms
        Sample.firstCall.outcome.table (Sample.leftWhen .false)) [[⟨4⟩]] derived := by
  have hdecided : ∀ entry ∈ (Sample.leftWhen .false).atoms.toList, entry.2 ≠ .unknown := by decide
  obtain ⟨a, hatom, hproperties, haccepted⟩ : ∃ a : ExternalAtom,
      Sample.tester.registry.find? "testSetMinus" = some a ∧
      a.signature.properties.learning = true ∧
      a.accepted ⟨[⟨0⟩, ⟨2⟩], Sample.leftWhen .false⟩ Sample.threeAtoms = [] := ⟨_, rfl, rfl, rfl⟩
  obtain ⟨e, he, htrue, hlearned⟩ : ∃ e, Sample.firstCall.outcome.result = .ok e ∧
      e.answer.trueTuples.toList = [[⟨4⟩]] ∧ e.learned = [.ofList [⟨8⟩, ⟨11⟩, ⟨15⟩]] :=
    ⟨_, rfl, by decide, by decide⟩
  obtain ⟨-, derived, hnews, -, hall⟩ :=
    learned_exactly hatom (Sample.leftWhen_builtOn .false) he
  refine ⟨a, e, derived, hatom, he, hlearned, ?_, ?_⟩
  · exact hnews.trans (congrArg (fun accepted => NogoodLog.news _ (accepted ++ derived)) haccepted)
  · rw [← htrue]
    refine hall rfl hproperties ?_
    rintro ⟨index, b, ⟨p, -, -, -, hb⟩, -⟩
    exact hdecided _ hb rfl

end Evaluator

end ExternalAtoms
