import ExternalAtoms.Bundled.Operand
import ExternalAtoms.Proofs.Answer
import ExternalAtoms.Proofs.Evaluation.Relation
import ExternalAtoms.Proofs.Symbol.Denotation

/-! # Operands while the table grows

Reading an operand stores nothing, and what was read once is read again from every later table. So
an atom that stores one symbol, whose content it computes from its arguments, reports the same tuple
whenever it answers.
-/
namespace ExternalAtoms
open SymbolTable

theorem SymbolTable.Extends.integer? {table later : SymbolTable} (h : Extends table later)
    {s : Symbol} {value : Int64} (hs : table.integer? s = some value) :
    later.integer? s = some value := by
  unfold SymbolTable.integer? at hs ⊢
  cases hr : table.resolve? s with
  | none => simp [hr] at hs
  | some t =>
    rw [hr] at hs
    rw [h.resolve hr]
    exact hs

namespace Bundled
variable {q : Query} {index : Nat} {predicate message : String} {call : Invocation}
  {w w' : Workspace} {s : Symbol} {table later : SymbolTable}

theorem argument_ok : (argument q index predicate message).run call w = (.ok s, w') ↔
    q.arg? index = some s ∧ w = w' := by
  unfold argument
  cases q.arg? index <;> simp

theorem integerArgument_ok {value : Int64} :
    (integerArgument q index predicate).run call w = (.ok value, w') ↔
      (q.arg? index).bind w.table.integer? = some value ∧ w = w' := by
  simp only [integerArgument, Retrieval.run_bind, Retrieval.run_read]
  cases (q.arg? index).bind w.table.integer? <;> simp

theorem readOperand_ok {o : Operand} :
    (readOperand s).run call w = (.ok o, w') ↔ operand w.table s = .ok o ∧ w = w' := by
  simp only [readOperand, Retrieval.run_bind, Retrieval.run_read, Retrieval.run_ofStored_ok]

theorem readOperands_ok {input : List Symbol} {operands : List Operand} :
    (readOperands input).run call w = (.ok operands, w') ↔
      input.mapM (operand w.table) = .ok operands ∧ w = w' := by
  simp only [readOperands, Retrieval.run_bind, Retrieval.run_read, Retrieval.run_ofStored_ok]

/-- An operand stays what it was while the table grows. -/
theorem operand_extends (ha : Admits table) (hl : Extends table later) {o : Operand}
    (h : operand table s = .ok o) : operand later s = .ok o := by
  unfold operand render at h ⊢
  cases ht : table.tree s with
  | error e => simp [ht, bind, Except.bind, Except.map] at h
  | ok tree =>
    rw [ht] at h
    rw [ha.tree_extends hl ht]
    exact h

theorem operands_extends (ha : Admits table) (hl : Extends table later) {input : List Symbol}
    {operands : List Operand} (h : input.mapM (operand table) = .ok operands) :
    input.mapM (operand later) = .ok operands :=
  mapM_ok_mono (fun _ _ _ ho => operand_extends ha hl ho) h

theorem argument_integer_extends (hl : Extends table later) {arg : Option Symbol} {value : Int64}
    (h : arg.bind table.integer? = some value) : arg.bind later.integer? = some value := by
  obtain ⟨s, hs, hvalue⟩ := Option.bind_eq_some_iff.mp h
  exact Option.bind_eq_some_iff.mpr ⟨s, hs, hl.integer? hvalue⟩

/-- A quoted text is stored with its quotes. -/
def textContent (text : String) (quoted : Bool) : Content :=
  .constant (if quoted then Text.quote text else text)

theorem storeText_ok {text : String} {quoted : Bool}
    (h : (storeText text quoted).run call w = (.ok s, w')) :
    w'.table.Finds s (textContent text quoted) := by
  cases quoted with
  | «true» =>
    rw [storeText, if_pos rfl, Retrieval.run_string, Prod.mk.injEq, Except.ok.injEq] at h
    obtain ⟨rfl, rfl⟩ := h
    exact .constant _ _
  | «false» =>
    rw [storeText, if_neg (by decide), Retrieval.run_constant, Prod.mk.injEq, Except.ok.injEq] at h
    obtain ⟨rfl, rfl⟩ := h
    exact .constant _ _

end Bundled

/-- Atoms that report one stored symbol, whose content depends on the input only and is the same in
every later table. -/
theorem ExternalAtom.reports_of_found {a : ExternalAtom} {final : SymbolTable}
    (content : SymbolTable → List Symbol → Option Content)
    (hstable : ∀ {table later : SymbolTable} {input : List Symbol} {c : Content},
      Admits table → Extends table later → content table input = some c →
      content later input = some c)
    (hrun : ∀ {q : Query} {call : Invocation} {w w' : Workspace} {answer : Answer},
      (a.retrieve q).run call w = (.ok answer, w') → ∃ c s, content w.table q.input = some c ∧
        w'.table.Finds s c ∧ answer = .ofTuples [[s]]) :
    a.Reports final fun input _ =>
      {t | ∃ c s, content final input = some c ∧ final.Finds s c ∧ t = [s]} := by
  intro q table answer hanswer t
  obtain ⟨w, hw, hadmits, hbefore, hafter⟩ := hanswer.exists_run
  obtain ⟨c, s, hc, hs, rfl⟩ := hrun hw
  have hfinal := hs.extend hafter
  have hcontent := hstable hadmits (hbefore.trans hafter).toExtends hc
  rw [Answer.mem_ofTuples, List.mem_singleton, Set.mem_ofPred_eq]
  constructor
  · rintro rfl
    exact ⟨c, s, hcontent, hfinal, rfl⟩
  · rintro ⟨c', s', hc', hs', rfl⟩
    obtain rfl := Option.some.inj (hcontent.symm.trans hc')
    rw [hs'.unique hfinal]

end ExternalAtoms
