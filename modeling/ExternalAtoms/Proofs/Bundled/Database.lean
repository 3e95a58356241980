import ExternalAtoms.Proofs.Bundled.Plugins
import ExternalAtoms.Proofs.Evaluation.Commit
import ExternalAtoms.Proofs.Evaluation.Value

/-! # The nogood database of the bundled plugins

In a session the bundled atoms are evaluated again and again, each time under an interpretation that
assigns the same atoms. Every nogood of the database was derived or submitted by one of the calls.
Whenever the premise of a nogood holds under a complete interpretation, the tuple for which it was
learned is true, so the database never rules out a real answer.
-/
namespace ExternalAtoms
open SymbolTable Sample

namespace Bundled

/-- A call of a registered atom, with the evaluator and the table that it found. -/
structure Call where
  evaluator : Evaluator
  atom : ExternalAtom
  predicate : String
  query : Query
  table : SymbolTable

namespace Call

def invocation (c : Call) : Invocation := ⟨c.atom.signature, c.query.input⟩

def attempt (c : Call) : Attempt := c.evaluator.attempt c.predicate c.query c.table

/-- The call brought a nogood for a tuple. If the nogood was derived, the input literals are its
premise; if it was submitted, all literals but the complement of the output atom are. -/
inductive Brought (c : Call) (t : Tuple) (n : Nogood) : (Symbol → Prop) → Prop
  | derived {draft : Draft} (h : c.attempt.result = .ok draft)
      (hn : (t, n) ∈ draft.answer.trueTuples.toList.zip draft.derived) :
      Brought c t n (c.invocation.InputLiteral c.attempt.table c.query.interpretation)
  | submitted {draft : Draft} {output : Symbol} (h : c.attempt.result = .ok draft)
      (hn : n ∈ draft.submitted) (ho : c.invocation.IsOutputAtom c.attempt.table t output)
      (hl : output.flip ∈ n.literals) :
      Brought c t n fun l => l ∈ n.literals ∧ l ≠ output.flip

end Call

/-- Calls of the bundled atoms, the last one first, under interpretations that assign exactly the
atoms of `D`. Between the calls anything may be stored. -/
inductive Session (D : Set Symbol) : List Call → Evaluator → SymbolTable → Prop
  | start {ev : Evaluator} {table : SymbolTable} (hlog : ev.log = .empty)
      (ht : Reaches .empty table) : Session D [] ev table
  | store {calls : List Call} {ev : Evaluator} {table : SymbolTable} (request : StoreRequest)
      (h : Session D calls ev table) : Session D calls ev (request.run table).2
  | evaluate {calls : List Call} {ev : Evaluator} {table : SymbolTable} {atom : ExternalAtom}
      {predicate : String} {q : Query} (h : Session D calls ev table)
      (hfind : ev.registry.find? predicate = some atom) (hatom : atom ∈ bundledAtoms)
      (hq : q.interpretation.BuiltOn table) (hD : ∀ b, b ∈ q.interpretation.truths ↔ b ∈ D) :
      Session D (⟨ev, atom, predicate, q, table⟩ :: calls)
        (ev.evaluate predicate q.input q.interpretation table).evaluator
        (ev.evaluate predicate q.input q.interpretation table).table

structure Call.Made (c : Call) (D : Set Symbol) (ev : Evaluator) (table : SymbolTable) : Prop where
  find : c.evaluator.registry.find? c.predicate = some c.atom
  bundled : c.atom ∈ bundledAtoms
  built : c.query.interpretation.BuiltOn c.table
  assigns : ∀ b, b ∈ c.query.interpretation.truths ↔ b ∈ D
  registry : ev.registry = c.evaluator.registry
  settings : ev.settings = c.evaluator.settings
  reaches : Reaches c.attempt.table table

variable {D : Set Symbol} {calls : List Call} {ev : Evaluator} {table : SymbolTable}

theorem Call.Made.later {c : Call} (h : c.Made D ev table) {ev' : Evaluator}
    {table' : SymbolTable} (hregistry : ev'.registry = ev.registry)
    (hsettings : ev'.settings = ev.settings) (hr : Reaches table table') : c.Made D ev' table' :=
  { h with
    registry := hregistry.trans h.registry
    settings := hsettings.trans h.settings
    reaches := h.reaches.trans hr }

theorem Session.made (h : Session D calls ev table) : ∀ c ∈ calls, c.Made D ev table := by
  induction h with
  | start => simp
  | store request _ ih => exact fun c hc => (ih c hc).later rfl rfl (run_reaches request _)
  | @evaluate calls ev table atom predicate q h hfind hatom hq hD ih =>
    obtain ⟨hregistry, hsettings⟩ :=
      ev.evaluate_registry predicate q.input q.interpretation table
    intro c hc
    rcases List.mem_cons.mp hc with rfl | hc
    · refine ⟨hfind, hatom, hq, hD, hregistry, hsettings, ?_⟩
      rw [Evaluator.evaluate_table]
      exact .refl
    · exact (ih c hc).later hregistry hsettings (ev.evaluate_reaches predicate _ _ table)

theorem Session.origin (h : Session D calls ev table) {n : Nogood} (hn : n ∈ ev.log.toList) :
    ∃ c ∈ calls, ∃ draft, c.attempt.result = .ok draft ∧
      (n ∈ draft.submitted ∨ n ∈ draft.derived) := by
  induction h with
  | start hlog ht => simp [hlog, NogoodLog.empty, NogoodLog.toList] at hn
  | store request _ ih => exact ih hn
  | @evaluate calls ev table atom predicate q h hfind hatom hq hD ih =>
    rcases Evaluator.mem_evaluate hn with hold | ⟨-, draft, hdraft, hnew⟩
    · obtain ⟨c, hc, hdraft⟩ := ih hold
      exact ⟨c, List.mem_cons_of_mem _ hc, hdraft⟩
    · exact ⟨_, List.mem_cons_self, draft, hdraft, hnew⟩

namespace Call.Made
variable {c : Call} {final : SymbolTable} {t : Tuple} {n : Nogood} {draft : Draft}

theorem attempt_eq (h : c.Made D ev table) :
    c.attempt = c.atom.attempt c.evaluator.settings c.query c.table := by
  rw [Call.attempt, Evaluator.attempt, h.find]

theorem derives_of_mem_zip (h : c.Made D ev table) (hd : c.attempt.result = .ok draft)
    (hr : Reaches c.attempt.table final) (hb : final.size ≤ 2 ^ 31)
    (hn : (t, n) ∈ draft.answer.trueTuples.toList.zip draft.derived) :
    c.invocation.Derives final c.query.interpretation t n ∧
      ∃ given, c.atom.Answers final c.query c.table given ∧ t ∈ given.trueTuples := by
  rw [h.attempt_eq] at hd hr
  exact ExternalAtom.derives_of_mem_zip h.built hd hr hb hn

/-- A submitted nogood comes from the one atom that submits nogoods. -/
theorem excludes (h : c.Made D ev table) (hd : c.attempt.result = .ok draft)
    (hn : n ∈ draft.submitted) (hr : Reaches c.attempt.table final) (hb : final.size ≤ 2 ^ 31) :
    c.atom.retrieve = setMinusLearn ∧ ∃ p s t, c.query.arg? 0 = some p ∧
      c.query.arg? 1 = some s ∧ Excludes c.invocation final p s t n := by
  rw [h.attempt_eq] at hd hr
  obtain ⟨given, -, hgiven, -⟩ := ExternalAtom.attempt_answers h.built hd hr
  obtain ⟨w, hrun, hw, hle, -, hfinal⟩ := hgiven.exists_wellFormed_run hb
  have hpending : draft.submitted = w.pending.toList := by
    rw [ExternalAtom.submitted_of_attempt hd, ExternalAtom.ask, hrun]
  rw [hpending] at hn
  rcases silent_of_mem h.bundled with hsilent | hlearn
  · have hnone := hsilent c.invocation (.ofTable c.table)
    rw [show (c.atom.retrieve c.query).run c.invocation (.ofTable c.table) = _ from hrun] at hnone
    simp only at hnone
    rw [hnone] at hn
    simp [Workspace.ofTable] at hn
  · rw [hlearn] at hrun
    obtain ⟨p, s, hp, hs, -, hsubmitted⟩ := setMinusLearn_ok hrun
    rcases learnOutputs_ok hw hsubmitted hle hn with hold | ⟨t, -, ht⟩
    · simp [Workspace.ofTable] at hold
    · exact ⟨hlearn, p, s, t, hp, hs, ht.extend hfinal⟩

theorem brought (h : c.Made D ev table) (hd : c.attempt.result = .ok draft)
    (hn : n ∈ draft.submitted ∨ n ∈ draft.derived) (hb : c.attempt.table.size ≤ 2 ^ 31) :
    ∃ t P, c.Brought t n P := by
  rcases hn with hn | hn
  · obtain ⟨-, p, s, t, -, -, member, other, output, -, -, ho, hn'⟩ := h.excludes hd hn .refl hb
    exact ⟨t, _, .submitted hd hn ho (by simp [hn'])⟩
  · have hlength := (ExternalAtom.attempt_derived h.built (h.attempt_eq ▸ hd) .refl
      (h.attempt_eq ▸ hb) (List.ne_nil_of_mem hn)).length_eq
    obtain ⟨k, hk, rfl⟩ := List.mem_iff_getElem.mp hn
    refine ⟨draft.answer.trueTuples.toList[k], _, .derived hd ?_⟩
    exact List.mem_iff_getElem.mpr ⟨k, by simpa [hlength] using hk, List.getElem_zip⟩

theorem inputLiteral_iff (h : c.Made D ev table) (hr : Reaches c.attempt.table final)
    (hb : final.size ≤ 2 ^ 31) {l : Symbol} :
    c.invocation.InputLiteral final c.query.interpretation l ↔
      c.invocation.InputLiteral c.attempt.table c.query.interpretation l := by
  have hle := Nat.le_trans hr.size_le hb
  have hcall : Reaches c.table c.attempt.table := c.evaluator.attempt_reaches _ _ _
  have hbuilt := h.built.extend hcall
  exact Invocation.inputLiteral_iff_of_extends (hbuilt.faithful hle) hr.toExtends
    ((hbuilt.extend hr).reached.wellFormed hb)

theorem literals_iff (h : c.Made D ev table) {P : Symbol → Prop} (hn : c.Brought t n P)
    (hr : Reaches c.attempt.table final) (hb : final.size ≤ 2 ^ 31) :
    ∃ output, c.invocation.IsOutputAtom final t output ∧
      ∀ l, l ∈ n.literals ↔ P l ∨ l = output.flip := by
  cases hn with
  | @derived draft hd hn =>
    obtain ⟨hderives, -⟩ := h.derives_of_mem_zip hd hr hb hn
    obtain ⟨output, ho, hliterals⟩ := hderives.literals
    refine ⟨output, ho, fun l => ?_⟩
    rw [hliterals, h.inputLiteral_iff hr hb]
  | @submitted draft output hd hn ho hl =>
    refine ⟨output, ho.extend hr.toExtends, fun l => ?_⟩
    by_cases he : l = output.flip
    · simp [he, hl]
    · simp [he]

theorem mem_trueTuples (h : c.Made D ev table) {P : Symbol → Prop} (hn : c.Brought t n P)
    (hr : Reaches c.attempt.table final) (hb : final.size ≤ 2 ^ 31) {j : Interpretation}
    {later : SymbolTable} {answer : Answer}
    (hj : c.atom.Answers final ⟨c.query.input, j⟩ later answer)
    (hD : ∀ b, b ∈ j.truths ↔ b ∈ D) (hholds : ∀ l, P l → j.isTrue l = true) :
    t ∈ answer.trueTuples := by
  have hsame : ∀ b, b ∈ c.query.interpretation.truths ↔ b ∈ j.truths := fun b => by
    rw [h.assigns, hD]
  cases hn with
  | @derived draft hd hn =>
    obtain ⟨hderives, given, hgiven, ht⟩ := h.derives_of_mem_zip hd hr hb hn
    have hjust : c.invocation.Justifies final c.query.interpretation j := by
      refine ⟨hderives.decided, fun l hl => hholds l ((h.inputLiteral_iff hr hb).mp hl), ?_⟩
      rintro index a v ⟨p, -, -, -, hv⟩ -
      have hmem : a ∈ c.query.interpretation.truths := by
        rw [hsame, Std.ExtTreeMap.mem_iff_isSome_getElem?, hv]
        rfl
      rw [Std.ExtTreeMap.mem_iff_isSome_getElem?] at hmem
      exact Option.isSome_iff_exists.mp hmem
    exact persists_of_mem h.bundled hb hgiven hj hjust hsame t ht
  | @submitted draft output hd hn ho hl =>
    -- The premise says which atom is true and which is false, whatever else the call read.
    obtain ⟨hlearn, p, s, t', hp, hs, hexcludes⟩ := h.excludes hd hn hr hb
    have hinput : c.invocation.input ≠ [] := List.ne_nil_of_mem (List.mem_of_getElem? hp)
    have hsound := hexcludes.sound (hj.wellFormed hb) (hj.faithful hb) hinput
      (ho.extend hr.toExtends) hl fun l hmem hne => hholds l ⟨hmem, hne⟩
    obtain ⟨w, hrun, -⟩ := hj.exists_run
    rw [hlearn] at hrun
    obtain ⟨p', s', hp', hs', rfl, -⟩ := setMinusLearn_ok hrun
    obtain rfl := Option.some.inj (hp.symm.trans hp')
    obtain rfl := Option.some.inj (hs.symm.trans hs')
    exact Answer.mem_ofTuples.mpr (mem_difference.mpr hsound)

end Call.Made

theorem truthOf_of_mem {e : Evaluation} {t : Tuple} (h : t ∈ e.answer.trueTuples)
    (hprovisional : e.provisional = false) : e.truthOf t = .true := by
  rw [Evaluation.truthOf_of_true h, hprovisional]
  rfl

/-- Every nogood of the database was brought by a call, and whenever its premise holds under a
complete interpretation of the same atoms, its tuple is true there. -/
theorem database_never_prunes (h : Session D calls ev table) (hb : table.size ≤ 2 ^ 31)
    (n : Nogood) (hn : n ∈ ev.log.toList) :
    (∃ c ∈ calls, ∃ t P, c.Brought t n P) ∧
      ∀ c ∈ calls, ∀ (t : Tuple) (P : Symbol → Prop), c.Brought t n P →
        (∃ output, c.invocation.storeOutputAtom table t = (.ok output, table) ∧
          ∀ l, l ∈ n.literals ↔ P l ∨ l = output.flip) ∧
        ∀ (j : Interpretation) (later : SymbolTable) (e : Evaluation),
          Reaches table later → j.BuiltOn later → j.isPartial = false →
          (∀ b, b ∈ j.truths ↔ b ∈ D) →
          (ev.evaluate c.predicate c.query.input j later).result = .ok e →
          (ev.evaluate c.predicate c.query.input j later).table.size ≤ 2 ^ 31 →
          (∀ l, P l → j.isTrue l = true) → e.truthOf t = .true := by
  constructor
  · obtain ⟨c, hc, draft, hd, hnew⟩ := h.origin hn
    have hmade := h.made c hc
    exact ⟨c, hc, hmade.brought hd hnew (Nat.le_trans hmade.reaches.size_le hb)⟩
  intro c hc t P hbrought
  have hmade := h.made c hc
  constructor
  · obtain ⟨output, ho, hliterals⟩ := hmade.literals_iff hbrought hmade.reaches hb
    have hbuilt := (hmade.built.extend (c.evaluator.attempt_reaches _ _ _)).extend hmade.reaches
    exact ⟨output, ho.store_eq (hbuilt.reached.wellFormed hb), hliterals⟩
  -- the premise makes the atom answer the tuple, and nothing is provisional where all is decided
  intro j later e hlater hj hcomplete hD he hle hholds
  have hfind : ev.registry.find? c.predicate = some c.atom := by
    rw [hmade.registry, hmade.find]
  obtain ⟨given, hgiven, htrue⟩ := Evaluator.evaluate_answers hfind hj he .refl
  have hreaches := (hmade.reaches.trans hlater).trans
    (ev.evaluate_reaches c.predicate c.query.input j later)
  have hmem := hmade.mem_trueTuples hbrought hreaches hle hgiven hD hholds
  obtain ⟨atom, draft, -, hdraft, -, hprovisional⟩ := Evaluator.evaluate_ok he
  refine truthOf_of_mem (htrue ▸ hmem) ?_
  rw [hprovisional]
  exact ExternalAtom.provisional_of_complete hdraft hcomplete

def submittingAtom : ExternalAtom :=
  ⟨⟨"testSetMinusLearn", [.predicate, .predicate], 1, { learning := false }⟩, setMinusLearn⟩

def submitting : Evaluator where
  registry := Registry.empty.insert "TestPlugin" submittingAtom

def submittingWhen (truth : Truth) (ev : Evaluator) (table : SymbolTable) : Evaluator.Outcome :=
  ev.evaluate "testSetMinusLearn" [⟨0⟩, ⟨2⟩] (leftWhen truth) table

def afterSubmitting : Evaluator.Outcome := submittingWhen .false submitting threeAtoms

/-- The nogood about `a` was submitted while `p(b)` was false, and holds where `p(b)` is true. -/
theorem database_never_prunes_submitted :
    Nogood.ofList [⟨8⟩, ⟨11⟩, ⟨15⟩] ∈ afterSubmitting.evaluator.log.toList ∧
      ∃ e, (submittingWhen .true afterSubmitting.evaluator afterSubmitting.table).result = .ok e ∧
        e.truthOf [⟨4⟩] = .true := by
  have hatom : submittingAtom ∈ bundledAtoms := by
    simp [bundledAtoms, testPlugin, submittingAtom]
  have hsession : Session {b | b = ⟨12⟩ ∨ b = ⟨10⟩ ∨ b = ⟨8⟩}
      [⟨submitting, submittingAtom, "testSetMinusLearn", ⟨[⟨0⟩, ⟨2⟩], leftWhen .false⟩, threeAtoms⟩]
      afterSubmitting.evaluator afterSubmitting.table :=
    .evaluate (.start rfl (runAll_reaches _ _)) rfl hatom (leftWhen_builtOn .false)
      (mem_leftWhen .false)
  have hr : Reaches threeAtoms afterSubmitting.table := submitting.evaluate_reaches _ _ _ _
  have hb : afterSubmitting.table.size ≤ 2 ^ 31 := by decide
  have hn : Nogood.ofList [⟨8⟩, ⟨11⟩, ⟨15⟩] ∈ afterSubmitting.evaluator.log.toList := by decide
  obtain ⟨draft, hdraft, hsubmitted⟩ : ∃ draft, (submitting.attempt "testSetMinusLearn"
      ⟨[⟨0⟩, ⟨2⟩], leftWhen .false⟩ threeAtoms).result = .ok draft ∧
      Nogood.ofList [⟨8⟩, ⟨11⟩, ⟨15⟩] ∈ draft.submitted := ⟨_, rfl, by decide⟩
  obtain ⟨e, he⟩ : ∃ e, (submittingWhen .true afterSubmitting.evaluator
      afterSubmitting.table).result = .ok e := ⟨_, rfl⟩
  refine ⟨hn, e, he, ?_⟩
  have houtput : (Invocation.mk submittingAtom.signature [⟨0⟩, ⟨2⟩]).IsOutputAtom
      (submitting.attempt "testSetMinusLearn" ⟨[⟨0⟩, ⟨2⟩], leftWhen .false⟩ threeAtoms).table
      [⟨4⟩] ⟨14⟩ := ⟨rfl, by decide, rfl⟩
  have hholds : ∀ l ∈ (Nogood.ofList [⟨8⟩, ⟨11⟩, ⟨15⟩]).literals, (leftWhen .true).isTrue l := by
    decide
  refine ((database_never_prunes hsession hb _ hn).2 _ List.mem_cons_self [⟨4⟩] _
    (.submitted hdraft hsubmitted houtput (by decide))).2 (leftWhen .true) _ e .refl
    ((leftWhen_builtOn .true).extend hr) rfl (mem_leftWhen .true) he (by decide) ?_
  intro l hl
  exact hholds l hl.1

end Bundled

end ExternalAtoms
