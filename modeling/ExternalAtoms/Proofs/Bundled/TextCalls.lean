import ExternalAtoms.Proofs.Bundled.OperandText

/-! # Calls of the atoms on texts

A call of an atom on texts stores one symbol and answers with it. What it stores is determined by
the texts of its operands, so it is found again by storing the same text in any later table of the
session.
-/
namespace ExternalAtoms
open SymbolTable

theorem Signature.checkInput_of_usable {s : Signature} {table : SymbolTable} {input : List Symbol}
    (hlength : s.TakesLength input.length) (hnone : InputKind.predicate ∉ s.inputs)
    (husable : ∀ x ∈ input, table.Usable x) : s.checkInput table input = .ok () := by
  refine checkInput_ok_iff_takes.mpr ⟨hlength, husable, fun index hindex => ?_⟩
  exact absurd (List.mem_of_getElem? hindex) hnone

theorem Interpretation.BuiltOn.empty {table : SymbolTable} (h : Reaches .empty table) :
    Interpretation.empty.BuiltOn table := ⟨.empty, table, .start h, rfl, .refl⟩

/-- The plugin has an atom of this name, with these inputs and one output, that runs the program. -/
def Plugin.Offers (p : Plugin) (name : String) (inputs : List InputKind)
    (program : Query → Retrieval Answer) : Prop :=
  ∃ a ∈ p.atoms, a.predicate = name ∧ a.signature.inputs = inputs ∧
    a.signature.outputArity = 1 ∧ a.retrieve = program

namespace Evaluator.Call
variable {c : Call} {p : Plugin} {a : ExternalAtom} {final : SymbolTable} {s s' : Symbol}

/-- The call is one of a session that has loaded the plugin and goes on to the final table. -/
structure LeadsTo (c : Call) (p : Plugin) (final : SymbolTable) : Prop where
  loads : c.evaluator.registry.Loads p
  built : c.query.interpretation.BuiltOn c.table
  reaches : Reaches c.outcome.table final

/-- The call succeeds, and its answer is the one tuple of this symbol. -/
def Outputs (c : Call) (s : Symbol) : Prop :=
  ∃ e, c.outcome.result = .ok e ∧ e.answer = .ofTuples [[s]]

/-- The call has the atom run the program, and the session goes on to the final table. -/
structure Runs (c : Call) (a : ExternalAtom) (program : Query → Retrieval Answer)
    (final : SymbolTable) : Prop where
  asks : c.evaluator.Asks a c.query.input c.query.interpretation c.table
  predicate : c.predicate = a.predicate
  arity : a.signature.outputArity = 1
  retrieve : a.retrieve = program
  reaches : Reaches c.outcome.table final
  bounded : final.size ≤ 2 ^ 31

theorem Outputs.unique (h : c.Outputs s) (h' : c.Outputs s') : s = s' := by
  obtain ⟨e, he, hs⟩ := h
  obtain ⟨e', he', hs'⟩ := h'
  obtain rfl := Except.ok.inj (he.symm.trans he')
  have hmem : [s] ∈ (Answer.ofTuples [[s']]).trueTuples := by
    rw [← hs', hs, Answer.mem_ofTuples]
    exact List.mem_singleton_self _
  rw [Answer.mem_ofTuples, List.mem_singleton] at hmem
  exact List.head_eq_of_cons_eq hmem

theorem Outputs.accepted (hs : c.Outputs s)
    (hfind : c.evaluator.registry.find? c.predicate = some a) :
    a.signature.checkInput c.table c.query.input = .ok () := by
  obtain ⟨e, he, -⟩ := hs
  obtain ⟨draft, hdraft, -⟩ := outcome_ok he
  obtain ⟨b, hb, hattempt⟩ := attempt_ok hdraft
  obtain rfl := Option.some.inj (hb.symm.trans hfind)
  rw [hattempt] at hdraft
  obtain ⟨given, dropped, hinput, -⟩ := ExternalAtom.attempt_ok hdraft
  exact hinput

section Offers
variable {name : String} {inputs : List InputKind} {program : Query → Retrieval Answer}
  (h : c.LeadsTo p final) (hb : final.size ≤ 2 ^ 31) (ho : p.Offers name inputs program)
  (hname : c.predicate = name)
include h hb ho hname

theorem exists_runs (hinput : ∀ a : ExternalAtom, a.signature.inputs = inputs →
      c.evaluator.registry.find? c.predicate = some a →
        a.signature.checkInput c.table c.query.input = .ok ()) :
    ∃ a, c.Runs a program final := by
  obtain ⟨a, ha, rfl, hinputs, harity, hr⟩ := ho
  have hfind := h.loads a ha
  have haccepts := hinput a hinputs (hname ▸ hfind)
  refine ⟨a, ⟨hfind, haccepts, h.built, ?_⟩, hname, harity, hr, h.reaches, hb⟩
  have hbounded := Nat.le_trans h.reaches.size_le hb
  rwa [outcome, hname] at hbounded

theorem exists_runs_of_usable (hnone : InputKind.predicate ∉ inputs)
    (hlength : ∀ s : Signature, s.inputs = inputs → s.TakesLength c.query.input.length)
    (husable : ∀ x ∈ c.query.input, c.table.Usable x) : ∃ a, c.Runs a program final := by
  refine exists_runs h hb ho hname fun a hinputs _ => ?_
  exact Signature.checkInput_of_usable (hlength a.signature hinputs) (hinputs ▸ hnone) husable

theorem Outputs.exists_runs (hs : c.Outputs s) : ∃ a, c.Runs a program final :=
  Call.exists_runs h hb ho hname fun _ _ hfind => hs.accepted hfind

end Offers

namespace Runs
variable {program : Query → Retrieval Answer} (h : c.Runs a program final)
include h

theorem toExtends : Extends c.table final := (c.outcome_reaches.trans h.reaches).toExtends

theorem final_wellFormed : WellFormed final :=
  (h.asks.built.reached.trans (c.outcome_reaches.trans h.reaches)).wellFormed h.bounded

theorem usable {x : Symbol} (hx : x ∈ c.query.input) : c.table.Usable x :=
  Signature.usable_of_checkInput h.asks.accepts x hx

/-- The argument counts as it does in the final table. -/
theorem operand_eq {x : Symbol} (hx : x ∈ c.query.input) :
    Bundled.operand c.table x = .ok ⟨final.plainText x, final.isString x⟩ := by
  have hw := h.asks.wellFormed
  rw [plainText_extends hw h.toExtends (h.usable hx) h.final_wellFormed,
    isString_extends hw h.toExtends (h.usable hx) h.final_wellFormed]
  exact Bundled.operand_eq_ok hw (h.usable hx)

theorem outputs_of_ask {w : Workspace}
    (hask : a.ask c.query c.table = (.ok (.ofTuples [[s]]), w))
    (hs : WellFormed w.table → w.table.Usable s) : c.Outputs s ∧ Grows w.table final := by
  have hwell : WellFormed w.table := by
    have hasked := h.asks.asked_wellFormed
    rwa [hask] at hasked
  have husable : (a.ask c.query c.table).2.table.Usable s := by
    rw [hask]
    exact hs hwell
  have hgiven : (a.ask c.query c.table).1 = .ok (.ofTuples [[s]]) := congrArg Prod.fst hask
  obtain ⟨e, he⟩ := h.asks.succeeds_of_presentable hgiven
    (Answer.presentable_single h.arity husable)
  have hanswer := (evaluate_of_given h.asks.find h.asks.accepts hgiven
    (Answer.unknownTuples_ofTuples _) (by simpa [Answer.mem_ofTuples] using husable)).2 e he
  have hreaches := a.attempt_reaches_of_input c.evaluator.settings h.asks.accepts
  have hattempt : c.attempt = a.attempt c.evaluator.settings c.query c.table := by
    rw [attempt, Evaluator.attempt, h.predicate, h.asks.find]
  rw [← hattempt, ← c.outcome_table, hask] at hreaches
  rw [← h.predicate] at he
  exact ⟨⟨e, he, hanswer.1⟩, Reaches.grows hwell.admits (hreaches.trans h.reaches)⟩

end Runs

end Evaluator.Call

namespace Bundled
open Evaluator

def joinedText (table : SymbolTable) (xs : List Symbol) : String :=
  String.join (xs.map table.plainText)

section Runs
variable {c : Evaluator.Call} {a : ExternalAtom} {program : Query → Retrieval Answer}
  {final : SymbolTable}

theorem outputs_text (h : c.Runs a program final) {text : String} {quoted : Bool}
    (hask : a.ask c.query c.table = (storeText text quoted >>= fun s =>
      pure (.ofTuples [[s]])).run ⟨a.signature, c.query.input⟩ (.ofTable c.table)) :
    ∃ s, c.Outputs s ∧ final.constant (if quoted then Text.quote text else text) = (s, final) := by
  have hstored : a.ask c.query c.table =
      (.ok (.ofTuples [[(c.table.constant (if quoted then Text.quote text else text)).1]]),
        .ofTable (c.table.constant (if quoted then Text.quote text else text)).2) := by
    rw [hask]
    cases quoted <;> rfl
  obtain ⟨hs, hgrows⟩ := h.outputs_of_ask hstored fun hw => hw.usable_of_finds (.constant _ _)
  exact ⟨_, hs, constant_again hgrows⟩

theorem outputs_join (h : c.Runs a program final) (quoted : List Operand → Bool)
    (hprogram : ∀ q, program q = readOperands q.input >>= fun operands =>
      storeText (joinTexts operands) (quoted operands) >>= fun s => pure (.ofTuples [[s]])) :
    ∃ s, c.Outputs s ∧
      final.constant (if quoted (c.query.input.map fun x => ⟨final.plainText x, final.isString x⟩)
        then Text.quote (joinedText final c.query.input)
        else joinedText final c.query.input) = (s, final) := by
  have hoperands : c.query.input.mapM (operand c.table) =
      .ok (c.query.input.map fun x => ⟨final.plainText x, final.isString x⟩) :=
    mapM_eq_ok_iff.mpr (List.forall₂_map_right_iff.mpr (List.forall₂_same.mpr fun x hx =>
      h.operand_eq hx))
  have hread : (readOperands c.query.input).run ⟨a.signature, c.query.input⟩ (.ofTable c.table) =
      (.ok (c.query.input.map fun x => ⟨final.plainText x, final.isString x⟩),
        .ofTable c.table) := readOperands_ok.mpr ⟨hoperands, rfl⟩
  have hjoined : joinTexts (c.query.input.map fun x => ⟨final.plainText x, final.isString x⟩) =
      joinedText final c.query.input := by
    rw [joinTexts, List.map_map]
    rfl
  rw [← hjoined]
  refine outputs_text h ?_
  rw [ExternalAtom.ask, h.retrieve, hprogram, Retrieval.run_bind_of_ok _ hread]

theorem read_first (h : c.Runs a program final) {x : Symbol} (hx : c.query.input[0]? = some x)
    (call : Invocation) (predicate message : String) :
    (argument c.query 0 predicate message).run call (.ofTable c.table) =
        (.ok x, .ofTable c.table) ∧
      (readOperand x).run call (.ofTable c.table) =
        (.ok ⟨final.plainText x, final.isString x⟩, .ofTable c.table) :=
  ⟨argument_ok.mpr ⟨hx, rfl⟩,
    readOperand_ok.mpr ⟨h.operand_eq (List.mem_of_getElem? hx), rfl⟩⟩

theorem outputs_strlen (h : c.Runs a strlen final) {x : Symbol}
    (hx : c.query.input[0]? = some x) : ∃ n, c.Outputs n ∧
      final.integer (Int64.ofNat (final.plainText x).length) = (n, final) := by
  obtain ⟨hfirst, hread⟩ := read_first h hx ⟨a.signature, c.query.input⟩ "strlen" "missing input"
  have hstored : a.ask c.query c.table =
      (.ok (.ofTuples [[(c.table.integer (Int64.ofNat (final.plainText x).length)).1]]),
        .ofTable (c.table.integer (Int64.ofNat (final.plainText x).length)).2) := by
    rw [ExternalAtom.ask, h.retrieve, strlen, Retrieval.run_bind_of_ok _ hfirst,
      Retrieval.run_bind_of_ok _ hread]
    rfl
  obtain ⟨hn, hgrows⟩ := h.outputs_of_ask hstored fun hw => hw.usable_of_finds (.intern rfl)
  exact ⟨_, hn, intern_again hgrows⟩

theorem outputs_substr (h : c.Runs a substr final) {x : Symbol}
    (hx : c.query.input[0]? = some x) {start count : Int64}
    (hstart : c.query.input[1]?.bind c.table.integer? = some start)
    (hcount : c.query.input[2]?.bind c.table.integer? = some count) :
    ∃ s, c.Outputs s ∧
      final.constant (if final.isString x then Text.quote (cutText (final.plainText x) start count)
        else cutText (final.plainText x) start count) = (s, final) := by
  obtain ⟨hfirst, hread⟩ := read_first h hx ⟨a.signature, c.query.input⟩ "substr" "missing input"
  have hsecond : (integerArgument c.query 1 "substr").run ⟨a.signature, c.query.input⟩
      (.ofTable c.table) = (.ok start, .ofTable c.table) := integerArgument_ok.mpr ⟨hstart, rfl⟩
  have hthird : (integerArgument c.query 2 "substr").run ⟨a.signature, c.query.input⟩
      (.ofTable c.table) = (.ok count, .ofTable c.table) := integerArgument_ok.mpr ⟨hcount, rfl⟩
  refine outputs_text h ?_
  rw [ExternalAtom.ask, h.retrieve, substr, Retrieval.run_bind_of_ok _ hfirst,
    Retrieval.run_bind_of_ok _ hread, Retrieval.run_bind_of_ok _ hsecond,
    Retrieval.run_bind_of_ok _ hthird]

end Runs

end Bundled

end ExternalAtoms
