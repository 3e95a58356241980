import ExternalAtoms.Bundled.Strings
import ExternalAtoms.Proofs.Bundled.Operand

/-! # What the string atoms report

Each of these atoms stores one symbol whose content is computed from the operands of its input.
-/
namespace ExternalAtoms.Bundled
open SymbolTable
variable {a : ExternalAtom} {final : SymbolTable}

def concatContent (table : SymbolTable) (input : List Symbol) : Option Content :=
  (input.mapM (operand table)).toOption.map fun operands => textContent (joinTexts operands) true

def joinContent (table : SymbolTable) (input : List Symbol) : Option Content :=
  (input.mapM (operand table)).toOption.map fun operands =>
    textContent (joinTexts operands) (operands.any Operand.quoted)

def strlenContent (table : SymbolTable) (input : List Symbol) : Option Content :=
  (input[0]?.bind fun s => (operand table s).toOption).map fun o =>
    .integer (Int64.ofNat o.text.length)

def substrContent (table : SymbolTable) (input : List Symbol) : Option Content :=
  (input[0]?.bind fun s => (operand table s).toOption).bind fun o =>
    (input[1]?.bind table.integer?).bind fun start =>
      (input[2]?.bind table.integer?).map fun count =>
        textContent (cutText o.text start count) o.quoted

theorem toOption_eq_some_iff {ε α : Type} {result : Except ε α} {a : α} :
    result.toOption = some a ↔ result = .ok a := by
  cases result <;> simp [Except.toOption]

section Extends
variable {table later : SymbolTable} {input : List Symbol} {c : Content}

theorem operands_toOption_extends (ha : Admits table) (hl : Extends table later)
    {operands : List Operand} (h : (input.mapM (operand table)).toOption = some operands) :
    (input.mapM (operand later)).toOption = some operands :=
  toOption_eq_some_iff.mpr (operands_extends ha hl (toOption_eq_some_iff.mp h))

theorem operand_toOption_extends (ha : Admits table) (hl : Extends table later) {o : Operand}
    (h : (input[0]?.bind fun s => (operand table s).toOption) = some o) :
    (input[0]?.bind fun s => (operand later s).toOption) = some o := by
  obtain ⟨s, hs, ho⟩ := Option.bind_eq_some_iff.mp h
  rw [toOption_eq_some_iff] at ho
  exact Option.bind_eq_some_iff.mpr
    ⟨s, hs, toOption_eq_some_iff.mpr (operand_extends ha hl ho)⟩

end Extends

theorem concat_reports (hr : a.retrieve = concat) :
    a.Reports final fun input _ =>
      {t | ∃ c s, concatContent final input = some c ∧ final.Finds s c ∧ t = [s]} := by
  refine ExternalAtom.reports_of_found concatContent ?_ ?_
  · intro table later input c ha hl h
    obtain ⟨operands, ho, rfl⟩ := Option.map_eq_some_iff.mp h
    exact Option.map_eq_some_iff.mpr ⟨operands, operands_toOption_extends ha hl ho, rfl⟩
  · intro q call w w' answer h
    rw [hr, concat] at h
    simp only [Retrieval.run_bind_ok, Retrieval.run_pure_ok, readOperands_ok] at h
    obtain ⟨operands, _, ⟨ho, rfl⟩, s, middle, hs, rfl, rfl⟩ := h
    refine ⟨_, s, Option.map_eq_some_iff.mpr ⟨operands, toOption_eq_some_iff.mpr ho, rfl⟩, ?_, rfl⟩
    exact @storeText_ok _ _ _ _ _ true hs

theorem joinOperands_reports (hr : a.retrieve = joinOperands) :
    a.Reports final fun input _ =>
      {t | ∃ c s, joinContent final input = some c ∧ final.Finds s c ∧ t = [s]} := by
  refine ExternalAtom.reports_of_found joinContent ?_ ?_
  · intro table later input c ha hl h
    obtain ⟨operands, ho, rfl⟩ := Option.map_eq_some_iff.mp h
    exact Option.map_eq_some_iff.mpr ⟨operands, operands_toOption_extends ha hl ho, rfl⟩
  · intro q call w w' answer h
    rw [hr, joinOperands] at h
    simp only [Retrieval.run_bind_ok, Retrieval.run_pure_ok, readOperands_ok] at h
    obtain ⟨operands, _, ⟨ho, rfl⟩, s, middle, hs, rfl, rfl⟩ := h
    refine ⟨_, s, Option.map_eq_some_iff.mpr ⟨operands, toOption_eq_some_iff.mpr ho, rfl⟩, ?_, rfl⟩
    exact storeText_ok hs

theorem strlen_reports (hr : a.retrieve = strlen) :
    a.Reports final fun input _ =>
      {t | ∃ c s, strlenContent final input = some c ∧ final.Finds s c ∧ t = [s]} := by
  refine ExternalAtom.reports_of_found strlenContent ?_ ?_
  · intro table later input c ha hl h
    obtain ⟨o, ho, rfl⟩ := Option.map_eq_some_iff.mp h
    exact Option.map_eq_some_iff.mpr ⟨o, operand_toOption_extends ha hl ho, rfl⟩
  · intro q call w w' answer h
    rw [hr, strlen] at h
    simp only [Retrieval.run_bind_ok, Retrieval.run_pure_ok, argument_ok, readOperand_ok] at h
    obtain ⟨x, _, ⟨hx, rfl⟩, o, _, ⟨ho, rfl⟩, n, middle, hn, rfl, rfl⟩ := h
    have hoperand : (q.input[0]?.bind fun s => (operand w.table s).toOption) = some o :=
      Option.bind_eq_some_iff.mpr ⟨x, hx, toOption_eq_some_iff.mpr ho⟩
    refine ⟨_, n, Option.map_eq_some_iff.mpr ⟨o, hoperand, rfl⟩, ?_, rfl⟩
    rw [Retrieval.run_integer, Prod.mk.injEq, Except.ok.injEq] at hn
    obtain ⟨rfl, rfl⟩ := hn
    exact .intern rfl

theorem substr_reports (hr : a.retrieve = substr) :
    a.Reports final fun input _ =>
      {t | ∃ c s, substrContent final input = some c ∧ final.Finds s c ∧ t = [s]} := by
  refine ExternalAtom.reports_of_found substrContent ?_ ?_
  · intro table later input c ha hl h
    obtain ⟨o, ho, h⟩ := Option.bind_eq_some_iff.mp h
    obtain ⟨start, hstart, h⟩ := Option.bind_eq_some_iff.mp h
    obtain ⟨count, hcount, rfl⟩ := Option.map_eq_some_iff.mp h
    refine Option.bind_eq_some_iff.mpr ⟨o, operand_toOption_extends ha hl ho, ?_⟩
    refine Option.bind_eq_some_iff.mpr ⟨start, argument_integer_extends hl hstart, ?_⟩
    exact Option.map_eq_some_iff.mpr ⟨count, argument_integer_extends hl hcount, rfl⟩
  · intro q call w w' answer h
    rw [hr, substr] at h
    simp only [Retrieval.run_bind_ok, Retrieval.run_pure_ok, argument_ok, readOperand_ok,
      integerArgument_ok] at h
    obtain ⟨x, _, ⟨hx, rfl⟩, o, _, ⟨ho, rfl⟩, start, _, ⟨hstart, rfl⟩, count, _, ⟨hcount, rfl⟩,
      s, middle, hs, rfl, rfl⟩ := h
    have hoperand : (q.input[0]?.bind fun s => (operand w.table s).toOption) = some o :=
      Option.bind_eq_some_iff.mpr ⟨x, hx, toOption_eq_some_iff.mpr ho⟩
    refine ⟨_, s, Option.bind_eq_some_iff.mpr ⟨o, hoperand, Option.bind_eq_some_iff.mpr
      ⟨start, hstart, Option.map_eq_some_iff.mpr ⟨count, hcount, rfl⟩⟩⟩, ?_, rfl⟩
    exact storeText_ok hs

end ExternalAtoms.Bundled
