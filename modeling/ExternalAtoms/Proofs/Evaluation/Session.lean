import ExternalAtoms.Bundled.Plugins
import ExternalAtoms.Proofs.Evaluation.Commit
import ExternalAtoms.Proofs.Evaluation.Growth
import ExternalAtoms.Proofs.Interpretation.Built
import ExternalAtoms.Proofs.Registration

/-! # Sessions of an evaluator

An evaluator starts with nothing registered and nothing learned. From then on plugins are offered
and external atoms are evaluated in any order, and in between anything may be stored in the table
that it shares. What a call found under a predicate is found there ever after, the table only grows,
and every nogood of the log is in the draft of a call.
-/
namespace ExternalAtoms
open SymbolTable

namespace Evaluator

/-- A call, with the evaluator and the table that it found. -/
structure Call where
  evaluator : Evaluator
  predicate : String
  query : Query
  table : SymbolTable

namespace Call

def attempt (c : Call) : Attempt := c.evaluator.attempt c.predicate c.query c.table

def outcome (c : Call) : Outcome :=
  c.evaluator.evaluate c.predicate c.query.input c.query.interpretation c.table

theorem outcome_table (c : Call) : c.outcome.table = c.attempt.table := evaluate_table _ _ _ _ _

theorem outcome_reaches (c : Call) : Reaches c.table c.outcome.table := evaluate_reaches _ _ _ _ _

theorem attempt_ok {c : Call} {draft : Draft} (hd : c.attempt.result = .ok draft) :
    ∃ atom, c.evaluator.registry.find? c.predicate = some atom ∧
      c.attempt = atom.attempt c.evaluator.settings c.query c.table := by
  simp only [attempt, Evaluator.attempt] at hd ⊢
  cases hfind : c.evaluator.registry.find? c.predicate with
  | none => simp [hfind] at hd
  | some atom => exact ⟨atom, rfl, rfl⟩

theorem outcome_ok {c : Call} {e : Evaluation} (he : c.outcome.result = .ok e) :
    ∃ draft, c.attempt.result = .ok draft ∧ e.answer = draft.answer ∧ e.outputs = draft.outputs ∧
      e.provisional = draft.provisional := by
  simp only [outcome, evaluate] at he
  split at he
  · simp at he
  · next draft hdraft =>
    obtain rfl := Except.ok.inj he
    exact ⟨draft, hdraft, rfl, rfl, rfl⟩

end Call

/-- The calls of a session, the last one first, and the evaluator and the table after them. A plugin
that is offered may also be refused. -/
inductive Session : List Call → Evaluator → SymbolTable → Prop
  | start (settings : Settings) {table : SymbolTable} (ht : Reaches .empty table) :
      Session [] { settings } table
  | store {calls : List Call} {ev : Evaluator} {table : SymbolTable} (request : StoreRequest)
      (h : Session calls ev table) : Session calls ev (request.run table).2
  | register {calls : List Call} {ev : Evaluator} {table : SymbolTable} (p : Plugin)
      (h : Session calls ev table) : Session calls (ev.register p).2 table
  | evaluate {calls : List Call} {ev : Evaluator} {table : SymbolTable} (predicate : String)
      (q : Query) (h : Session calls ev table) :
      Session (⟨ev, predicate, q, table⟩ :: calls)
        (Call.outcome ⟨ev, predicate, q, table⟩).evaluator
        (Call.outcome ⟨ev, predicate, q, table⟩).table

/-- What stays known of a call for the rest of the session. -/
structure Call.Kept (c : Call) (ev : Evaluator) (table : SymbolTable) : Prop where
  sound : c.evaluator.registry.Sound
  reached : Reaches .empty c.table
  find : ∀ predicate atom, c.evaluator.registry.find? predicate = some atom →
    ev.registry.find? predicate = some atom
  reaches : Reaches c.outcome.table table

variable {calls : List Call} {ev ev' : Evaluator} {table table' : SymbolTable} {c : Call}

theorem Call.outcome_registry (c : Call) : c.outcome.evaluator.registry = c.evaluator.registry :=
  (evaluate_registry _ _ _ _ _).1

theorem Call.Kept.later (h : c.Kept ev table)
    (hfind : ∀ predicate atom, ev.registry.find? predicate = some atom →
      ev'.registry.find? predicate = some atom)
    (hr : Reaches table table') : c.Kept ev' table' where
  sound := h.sound
  reached := h.reached
  find predicate atom hc := hfind predicate atom (h.find predicate atom hc)
  reaches := h.reaches.trans hr

namespace Session

theorem reached (h : Session calls ev table) : Reaches .empty table := by
  induction h with
  | start settings ht => exact ht
  | store request _ ih => exact ih.trans (run_reaches request _)
  | register p _ ih => exact ih
  | @evaluate calls ev table predicate q _ ih =>
    exact ih.trans (Call.outcome_reaches ⟨ev, predicate, q, table⟩)

theorem sound (h : Session calls ev table) : ev.registry.Sound := by
  induction h with
  | start settings ht => exact Registry.empty_sound
  | store request _ ih => exact ih
  | register p _ ih => exact ih.register p
  | evaluate predicate q _ ih =>
    rw [Call.outcome_registry]
    exact ih

theorem kept (h : Session calls ev table) : ∀ c ∈ calls, c.Kept ev table := by
  induction h with
  | start settings ht => simp
  | store request _ ih =>
    exact fun c hc => (ih c hc).later (fun _ _ => id) (run_reaches request _)
  | register p _ ih =>
    exact fun c hc => (ih c hc).later (fun _ _ hf => Registry.find?_register hf p) .refl
  | @evaluate calls ev table predicate q h ih =>
    have hregistry := Call.outcome_registry ⟨ev, predicate, q, table⟩
    have hfind : ∀ predicate' atom, ev.registry.find? predicate' = some atom →
        (Call.outcome ⟨ev, predicate, q, table⟩).evaluator.registry.find? predicate' =
          some atom := by
      intro predicate' atom hf
      rwa [hregistry]
    intro c hc
    rcases List.mem_cons.mp hc with rfl | hc
    · exact ⟨h.sound, h.reached, hfind, .refl⟩
    · exact (ih c hc).later hfind (Call.outcome_reaches ⟨ev, predicate, q, table⟩)

theorem origin (h : Session calls ev table) {n : Nogood} (hn : n ∈ ev.log.toList) :
    n.Proper ∧ ∃ c ∈ calls, ∃ draft, c.attempt.result = .ok draft ∧
      (n ∈ draft.submitted ∨ n ∈ draft.derived) := by
  induction h with
  | start settings ht => simp [NogoodLog.empty, NogoodLog.toList] at hn
  | store request _ ih => exact ih hn
  | register p _ ih => exact ih hn
  | evaluate predicate q _ ih =>
    rcases mem_evaluate hn with hold | ⟨hproper, draft, hdraft, hnew⟩
    · obtain ⟨hproper, c, hc, hdraft⟩ := ih hold
      exact ⟨hproper, c, List.mem_cons_of_mem _ hc, hdraft⟩
    · exact ⟨hproper, _, List.mem_cons_self, draft, hdraft, hnew⟩

end Session

end Evaluator

namespace Sample
open Evaluator

/-- The evaluator on which only the test plugin was registered. -/
def tester : Evaluator where
  registry :=
    { entries := (Bundled.testPlugin.atoms.foldl
        (fun (r : Registry) atom => r.insert "TestPlugin" atom) .empty).entries
      plugins := ["TestPlugin"] }

/-- Derives a nogood for the difference of `p` and `q`, which is `a` alone. -/
def firstCall : Call := ⟨tester, "testSetMinus", ⟨[⟨0⟩, ⟨2⟩], leftWhen .false⟩, threeAtoms⟩

/-- Submits a nogood for each of `a` and `b`. -/
def secondCall : Call :=
  ⟨firstCall.outcome.evaluator, "testSetMinusLearn", ⟨[⟨0⟩, ⟨2⟩], leftWhen .true⟩,
    firstCall.outcome.table⟩

theorem tester_registered : ({} : Evaluator).register Bundled.testPlugin =
    (.ok Bundled.testPlugin.atoms.length, tester) := rfl

theorem tester_loads : tester.registry.Loads Bundled.testPlugin := by
  have hloads : (({} : Evaluator).register Bundled.testPlugin).2.registry.Loads
      Bundled.testPlugin := Registry.loads_of_register (congrArg Prod.fst tester_registered)
  rwa [tester_registered] at hloads

theorem twoCalls :
    Session [secondCall, firstCall] secondCall.outcome.evaluator secondCall.outcome.table := by
  have hstart : Session [] {} threeAtoms := .start {} (runAll_reaches _ _)
  have hregistered := hstart.register Bundled.testPlugin
  rw [tester_registered] at hregistered
  exact .evaluate _ _ (.evaluate _ _ hregistered)

theorem twoCalls_builtOn :
    ∀ c ∈ [secondCall, firstCall], c.query.interpretation.BuiltOn c.table :=
  List.forall_mem_cons.mpr ⟨(leftWhen_builtOn .true).extend firstCall.outcome_reaches,
    List.forall_mem_singleton.mpr (leftWhen_builtOn .false)⟩

end Sample

end ExternalAtoms
