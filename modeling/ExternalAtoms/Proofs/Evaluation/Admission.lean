import ExternalAtoms.Proofs.Evaluation.Session
import ExternalAtoms.Proofs.Evaluation.Success

/-! # Which calls reach their atom

The signature of an atom says which inputs it takes: how many arguments, all of them positive stored
symbols, and names of predicates where it wants them. The atom is asked exactly when its predicate
is registered and it takes the input. Any other call is refused for the first of these reasons that
applies, at the leftmost wrong argument, and leaves the table as it was.
-/
namespace ExternalAtoms
open SymbolTable

namespace SymbolTable
variable {table : SymbolTable} {s : Symbol}

/-- The symbol is a constant that is spelled as an identifier. -/
def NamesPredicate (table : SymbolTable) (s : Symbol) : Prop :=
  ∃ name text, table.resolve? s = some (.constant name) ∧
    table.names.resolve? name = some text ∧ Text.SpellsIdentifier text

theorem isPredicateConstant_iff_namesPredicate :
    table.isPredicateConstant s = true ↔ table.NamesPredicate s := by
  unfold isPredicateConstant NamesPredicate
  split
  · next name hr => simp [hr, isPredicateName_iff, Text.isIdentifier_iff]
  · next hr => simpa using fun name h => absurd h (hr name)

theorem isAtom_of_constant (h : table.kind? s = some .constant) :
    table.isAtom s = (table.isPredicateConstant s, table) := by
  unfold kind? at h
  cases hr : table.resolve? s with
  | none => simp [hr] at h
  | some t =>
    cases t with
    | constant name => cases hn : table.isPredicateName name <;>
        simp [isAtom, head, isPredicateConstant, hr, hn]
    | integer value => simp [hr, Term.kind] at h
    | function name args => simp [hr, Term.kind] at h

theorem isPredicateConstant_of_kind (h : table.kind? s ≠ some .constant) :
    table.isPredicateConstant s = false := by
  unfold isPredicateConstant
  split
  · next name hr => simp [kind?, hr, Term.kind] at h
  · rfl

end SymbolTable

namespace Signature
variable {s : Signature} {table : SymbolTable} {input : List Symbol} {index count : Nat}

/-- A trailing tuple may be empty or have any length. -/
def TakesLength (s : Signature) (count : Nat) : Prop :=
  if s.inputs.getLast? = some .tuple then s.inputs.length - 1 ≤ count else count = s.inputs.length

def TakesAt (s : Signature) (table : SymbolTable) (index : Nat) (arg : Symbol) : Prop :=
  table.Usable arg ∧ (s.inputs[index]? = some .predicate → table.NamesPredicate arg)

/-- What the input of an atom must be like. -/
structure Takes (s : Signature) (table : SymbolTable) (input : List Symbol) : Prop where
  length : s.TakesLength input.length
  usable : ∀ arg ∈ input, table.Usable arg
  named : ∀ index : Nat, s.inputs[index]? = some .predicate →
    ∃ arg, input[index]? = some arg ∧ table.NamesPredicate arg

theorem hasTupleInput_iff : s.hasTupleInput = true ↔ s.inputs.getLast? = some .tuple := by
  rw [hasTupleInput, beq_iff_eq]

theorem acceptsLength_iff : s.acceptsLength count = true ↔ s.TakesLength count := by
  unfold acceptsLength TakesLength fixedInputs
  simp only [← hasTupleInput_iff]
  split <;> simp

theorem kindAt_eq_predicate_iff :
    s.kindAt index = some .predicate ↔ s.inputs[index]? = some .predicate := by
  unfold kindAt
  split
  · next kind hk => rw [hk]
  · next hk =>
    rw [hk]
    split <;> simp

theorem acceptsArgument_iff_takesAt {arg : Symbol} :
    s.acceptsArgument table index arg = true ↔ s.TakesAt table index arg := by
  rw [acceptsArgument_iff, kindAt_eq_predicate_iff, isPredicateConstant_iff_namesPredicate, TakesAt]

/-- Where a predicate is wanted there is an argument, because a trailing tuple comes last. -/
theorem lt_of_predicate (hlength : s.TakesLength count)
    (hk : s.inputs[index]? = some .predicate) : index < count := by
  have hinside := (List.getElem?_eq_some_iff.mp hk).1
  unfold TakesLength at hlength
  split at hlength
  · next htuple =>
    have hne : index ≠ s.inputs.length - 1 := by
      rintro rfl
      rw [← List.getLast?_eq_getElem?, htuple] at hk
      cases hk
    omega
  · omega

theorem takes_iff : s.Takes table input ↔ s.TakesLength input.length ∧
    ∀ index arg, input[index]? = some arg → s.TakesAt table index arg := by
  constructor
  · rintro ⟨hlength, husable, hnamed⟩
    refine ⟨hlength, fun index arg harg => ⟨husable arg (List.mem_of_getElem? harg), fun hk => ?_⟩⟩
    obtain ⟨other, hother, hnames⟩ := hnamed index hk
    rw [harg] at hother
    exact Option.some.inj hother ▸ hnames
  · rintro ⟨hlength, hargs⟩
    refine ⟨hlength, fun arg harg => ?_, fun index hk => ?_⟩
    · obtain ⟨index, hindex⟩ := List.mem_iff_getElem?.mp harg
      exact (hargs index arg hindex).1
    · have harg := List.getElem?_eq_getElem (lt_of_predicate hlength hk)
      exact ⟨_, harg, (hargs index _ harg).2 hk⟩

theorem checkInput_ok_iff_takes : s.checkInput table input = .ok () ↔ s.Takes table input := by
  simp only [checkInput_ok_iff, takes_iff, acceptsLength_iff, acceptsArgument_iff_takesAt]

theorem hasTupleInput_iff_last :
    s.hasTupleInput = true ↔ s.inputs[s.inputs.length - 1]? = some .tuple := by
  rw [hasTupleInput_iff, List.getLast?_eq_getElem?]

theorem kindAt_of_lt_fixedInputs (hs : s.WellFormed) (h : index < s.fixedInputs) :
    ∃ kind, s.kindAt index = some kind ∧ kind ≠ .tuple := by
  have hinside : index < s.inputs.length := by
    unfold fixedInputs at h
    split at h <;> omega
  have hk := List.getElem?_eq_getElem hinside
  refine ⟨s.inputs[index], by rw [kindAt, hk], fun htuple => ?_⟩
  -- a tuple at this position would be the last input, which is not a fixed one
  rw [htuple] at hk
  have hend := hs.tuple_last index hk
  have hlast : s.hasTupleInput = true :=
    hasTupleInput_iff_last.mpr (by rwa [← hend, Nat.add_sub_cancel])
  rw [fixedInputs, if_pos hlast] at h
  omega

theorem kindAt_of_fixedInputs_le (htuple : s.hasTupleInput = true) (h : s.fixedInputs ≤ index) :
    s.kindAt index = some .tuple := by
  rw [fixedInputs, if_pos htuple] at h
  unfold kindAt
  split
  · next kind hk =>
    have hinside := (List.getElem?_eq_some_iff.mp hk).1
    obtain rfl : index = s.inputs.length - 1 := by omega
    exact hk.symm.trans (hasTupleInput_iff_last.mp htuple)
  · exact if_pos htuple

theorem kindAt_of_takesLength (hs : s.WellFormed) (hlength : s.TakesLength count)
    (hindex : index < count) :
    ∃ kind, s.kindAt index = some kind ∧ (kind = .tuple ↔ s.fixedInputs ≤ index) := by
  by_cases hfixed : index < s.fixedInputs
  · obtain ⟨kind, hk, hne⟩ := kindAt_of_lt_fixedInputs hs hfixed
    exact ⟨kind, hk, iff_of_false hne (by omega)⟩
  · have htuple : s.hasTupleInput = true := by
      by_contra hnone
      rw [TakesLength, if_neg (hasTupleInput_iff.not.mp hnone)] at hlength
      rw [fixedInputs, if_neg hnone] at hfixed
      omega
    exact ⟨.tuple, kindAt_of_fixedInputs_le htuple (by omega), iff_of_true rfl (by omega)⟩

theorem checkArguments_error {e : EvaluationError}
    (h : s.checkArguments table index input = .error e) :
    ∃ n arg, input[n]? = some arg ∧ ¬s.TakesAt table (index + n) arg ∧
      (∀ m other, m < n → input[m]? = some other → s.TakesAt table (index + m) other) ∧
      e = .inputKind s.predicate (index + n) (table.describe arg) := by
  induction input generalizing index with
  | nil => simp [checkArguments] at h
  | cons arg rest ih =>
    rw [checkArguments] at h
    split at h
    · next haccepted =>
      obtain ⟨n, other, hother, hwrong, hleft, rfl⟩ := ih h
      have hshift : ∀ k, index + 1 + k = index + (k + 1) := fun k => by omega
      rw [hshift] at hwrong ⊢
      refine ⟨n + 1, other, hother, hwrong, fun m right hm hright => ?_, rfl⟩
      cases m with
      | zero => exact Option.some.inj hright ▸ acceptsArgument_iff_takesAt.mp haccepted
      | succ m =>
        rw [← hshift]
        exact hleft m right (by omega) hright
    · next hrefused =>
      rw [acceptsArgument_iff_takesAt] at hrefused
      exact ⟨0, arg, rfl, hrefused, fun m _ hm => absurd hm (Nat.not_lt_zero m),
        (Except.error.inj h).symm⟩

/-- The check of the arguments when the table is asked whether a symbol is an atom, which is asked
of constants only. -/
def examine (s : Signature) (table : SymbolTable) (index : Nat) :
    List Symbol → Except EvaluationError Unit × SymbolTable
  | [] => (.ok (), table)
  | arg :: rest =>
    if arg.isNegated || !table.isKnown arg then
      (.error (.inputKind s.predicate index (table.describe arg)), table)
    else
      let asked := if table.kind? arg = some .constant then table.isAtom arg else (false, table)
      if s.kindAt index = some .predicate ∧ asked.1 = false then
        (.error (.inputKind s.predicate index (asked.2.describe arg)), asked.2)
      else s.examine asked.2 (index + 1) rest

theorem examine_eq : s.examine table index input = (s.checkArguments table index input, table) := by
  induction input generalizing index with
  | nil => rfl
  | cons arg rest ih =>
    have hasked : (if table.kind? arg = some .constant then table.isAtom arg else (false, table)) =
        (table.isPredicateConstant arg, table) := by
      split
      · next hc => exact isAtom_of_constant hc
      · next hc => rw [isPredicateConstant_of_kind hc]
    simp only [examine, hasked, ih, checkArguments, acceptsArgument]
    by_cases hnegated : arg.isNegated = true
    · simp [hnegated]
    · by_cases hknown : table.isKnown arg = true
      · by_cases hk : s.kindAt index = some .predicate
        · by_cases hc : table.isPredicateConstant arg = true <;> simp [hnegated, hknown, hk, hc]
        · simp [hnegated, hknown, hk]
      · simp [hknown]

end Signature

namespace ExternalAtom
variable {a : ExternalAtom} {settings : Settings} {q : Query} {table : SymbolTable}
  {e : EvaluationError}

theorem attempt_of_refused (h : a.signature.checkInput table q.input = .error e) :
    a.attempt settings q table = ⟨.error e, 0, table⟩ := by
  simp only [attempt, h]

theorem attempt_of_ask_error (hinput : a.signature.checkInput table q.input = .ok ())
    (h : (a.ask q table).1 = .error e) :
    a.attempt settings q table = ⟨.error e, 0, (a.ask q table).2.table⟩ := by
  simp only [attempt, hinput, h]

end ExternalAtom

namespace Evaluator
variable {ev : Evaluator} {predicate : String} {input : List Symbol} {i : Interpretation}
  {table later : SymbolTable} {a : ExternalAtom} {e : EvaluationError}

def answeringBy (ev : Evaluator) (predicate : String) (program : Query → Retrieval Answer) :
    Evaluator :=
  { ev with
    registry := { ev.registry with
      entries := ev.registry.entries.modify predicate fun entry =>
        { entry with atom := { entry.atom with retrieve := program } } } }

/-- How a call ends depends on the program of the atom. -/
def RunsRetrieval (ev : Evaluator) (predicate : String) (input : List Symbol) (i : Interpretation)
    (table : SymbolTable) : Prop :=
  ∃ program other, ((ev.answeringBy predicate program).evaluate predicate input i table).result ≠
    ((ev.answeringBy predicate other).evaluate predicate input i table).result

def Takes (ev : Evaluator) (predicate : String) (input : List Symbol) (table : SymbolTable) :
    Prop :=
  ∃ a, ev.registry.find? predicate = some a ∧ a.signature.Takes table input

/-- Why a call is refused. A later reason presupposes that the earlier ones do not apply. -/
inductive Refuses (ev : Evaluator) (predicate : String) (input : List Symbol)
    (table : SymbolTable) : EvaluationError → Prop
  | unknownAtom (h : ev.registry.find? predicate = none) :
      Refuses ev predicate input table (.unknownAtom predicate)
  | inputArity {a : ExternalAtom} (hatom : ev.registry.find? predicate = some a)
      (hlength : ¬a.signature.TakesLength input.length) :
      Refuses ev predicate input table
        (.inputArity predicate a.signature.expectedLength input.length)
  | inputKind {a : ExternalAtom} {index : Nat} {arg : Symbol}
      (hatom : ev.registry.find? predicate = some a)
      (hlength : a.signature.TakesLength input.length) (harg : input[index]? = some arg)
      (hwrong : ¬a.signature.TakesAt table index arg)
      (hleast : ∀ left other, left < index → input[left]? = some other →
        a.signature.TakesAt table left other) :
      Refuses ev predicate input table (.inputKind predicate index (table.describe arg))

theorem find?_answeringBy (program : Query → Retrieval Answer) :
    (ev.answeringBy predicate program).registry.find? predicate =
      (ev.registry.find? predicate).map fun a => { a with retrieve := program } := by
  simp only [Registry.find?, answeringBy, Std.ExtTreeMap.getElem?_modify_self, Option.map_map]
  rfl

theorem find?_answeringBy_of_some (hatom : ev.registry.find? predicate = some a)
    (program : Query → Retrieval Answer) :
    (ev.answeringBy predicate program).registry.find? predicate =
      some { a with retrieve := program } := by
  rw [find?_answeringBy, hatom, Option.map_some]

theorem evaluate_of_attempt (h : ev.attempt predicate ⟨input, i⟩ table = ⟨.error e, 0, later⟩) :
    ev.evaluate predicate input i table =
      ⟨.error e, { ev with counters := ev.counters.recordFailure }, later⟩ := by
  simp [evaluate, h, Counters.recordDropped]

theorem evaluate_of_unregistered (h : ev.registry.find? predicate = none) :
    ev.evaluate predicate input i table =
      ⟨.error (.unknownAtom predicate), { ev with counters := ev.counters.recordFailure },
        table⟩ := by
  refine evaluate_of_attempt ?_
  simp only [attempt, h]

theorem evaluate_of_refused (hatom : ev.registry.find? predicate = some a)
    (h : a.signature.checkInput table input = .error e) :
    ev.evaluate predicate input i table =
      ⟨.error e, { ev with counters := ev.counters.recordFailure }, table⟩ := by
  refine evaluate_of_attempt ?_
  simp only [attempt, hatom]
  exact ExternalAtom.attempt_of_refused h

theorem evaluate_of_ask_error (hatom : ev.registry.find? predicate = some a)
    (hinput : a.signature.checkInput table input = .ok ())
    (h : (a.ask ⟨input, i⟩ table).1 = .error e) :
    ev.evaluate predicate input i table =
      ⟨.error e, { ev with counters := ev.counters.recordFailure },
        (a.ask ⟨input, i⟩ table).2.table⟩ := by
  refine evaluate_of_attempt ?_
  simp only [attempt, hatom]
  exact ExternalAtom.attempt_of_ask_error hinput h

theorem refuses_of_not_takes (hr : ev.registry.Registered)
    (h : ¬ev.Takes predicate input table) :
    ∃ e, ev.Refuses predicate input table e ∧ ev.evaluate predicate input i table =
      ⟨.error e, { ev with counters := ev.counters.recordFailure }, table⟩ := by
  cases hatom : ev.registry.find? predicate with
  | none => exact ⟨_, .unknownAtom hatom, evaluate_of_unregistered hatom⟩
  | some a =>
    have hpredicate : a.signature.predicate = predicate := by
      obtain ⟨entry, hentry, rfl⟩ := Option.map_eq_some_iff.mp hatom
      exact hr.consistent.keyed predicate entry hentry
    cases hcheck : a.signature.checkInput table input with
    | ok _ => exact absurd ⟨a, hatom, Signature.checkInput_ok_iff_takes.mp hcheck⟩ h
    | error e =>
      refine ⟨e, ?_, evaluate_of_refused hatom hcheck⟩
      rw [Signature.checkInput] at hcheck
      split at hcheck
      · next hlength =>
        obtain ⟨index, arg, harg, hwrong, hleast, rfl⟩ := Signature.checkArguments_error hcheck
        simp only [Nat.zero_add] at hwrong hleast ⊢
        rw [hpredicate]
        exact .inputKind hatom (Signature.acceptsLength_iff.mp hlength) harg hwrong hleast
      · next hlength =>
        rw [Signature.acceptsLength_iff] at hlength
        rw [← Except.error.inj hcheck, hpredicate]
        exact .inputArity hatom hlength

/-- Whatever program answers for the atom, a call that is not taken ends in the same way. -/
theorem result_answeringBy_of_not_takes (h : ¬ev.Takes predicate input table) :
    ∃ e, ∀ program,
      ((ev.answeringBy predicate program).evaluate predicate input i table).result = .error e := by
  cases hatom : ev.registry.find? predicate with
  | none =>
    refine ⟨.unknownAtom predicate, fun program => ?_⟩
    rw [evaluate_of_unregistered (by rw [find?_answeringBy, hatom, Option.map_none])]
  | some a =>
    cases hcheck : a.signature.checkInput table input with
    | ok _ => exact absurd ⟨a, hatom, Signature.checkInput_ok_iff_takes.mp hcheck⟩ h
    | error e =>
      refine ⟨e, fun program => ?_⟩
      rw [evaluate_of_refused (find?_answeringBy_of_some hatom program) hcheck]

theorem result_answeringBy_fail (h : ev.Takes predicate input table) (e : EvaluationError) :
    ((ev.answeringBy predicate fun _ => .fail e).evaluate predicate input i table).result =
      .error e := by
  obtain ⟨a, hatom, htakes⟩ := h
  have hfind := find?_answeringBy_of_some hatom fun _ => .fail e
  rw [evaluate_of_ask_error hfind (Signature.checkInput_ok_iff_takes.mpr htakes) rfl]

theorem runsRetrieval_iff : ev.RunsRetrieval predicate input i table ↔
    ev.Takes predicate input table := by
  constructor
  · rintro ⟨program, other, hne⟩
    by_contra hrefused
    obtain ⟨e, he⟩ := result_answeringBy_of_not_takes hrefused
    exact hne ((he program).trans (he other).symm)
  · intro htakes
    refine ⟨fun _ => .fail (.unexpectedUnknown predicate), fun _ => .fail (.unknownAtom predicate),
      ?_⟩
    rw [result_answeringBy_fail htakes, result_answeringBy_fail htakes]
    simp

/-- The atom is asked exactly when it is registered and takes the input. Otherwise the call is
refused, for the first reason there is, and nothing changes but the count of failures. -/
theorem asked_exactly_when_taken (hr : ev.registry.Registered) (predicate : String)
    (input : List Symbol) (i : Interpretation) (table : SymbolTable) :
    let outcome := ev.evaluate predicate input i table
    (ev.RunsRetrieval predicate input i table ↔ ev.Takes predicate input table) ∧
      (∀ a, ev.registry.find? predicate = some a → a.signature.Takes table input →
        Reaches (a.ask ⟨input, i⟩ table).2.table outcome.table ∧
          (∀ e, (a.ask ⟨input, i⟩ table).1 = .error e → outcome =
            ⟨.error e, { ev with counters := ev.counters.recordFailure },
              (a.ask ⟨input, i⟩ table).2.table⟩) ∧
          ∀ index < input.length, ∃ kind, a.signature.kindAt index = some kind ∧
            (kind = .tuple ↔ a.signature.fixedInputs ≤ index)) ∧
      (¬ev.Takes predicate input table → ∃ e, ev.Refuses predicate input table e ∧
        outcome = ⟨.error e, { ev with counters := ev.counters.recordFailure }, table⟩) ∧
      ∀ a, ev.registry.find? predicate = some a →
        a.signature.examine table 0 input = (a.signature.checkArguments table 0 input, table) := by
  refine ⟨runsRetrieval_iff, fun a hatom htakes => ⟨?_, fun e he => ?_, fun index hindex => ?_⟩,
    refuses_of_not_takes hr, fun a _ => Signature.examine_eq⟩
  · rw [evaluate_table, attempt, hatom]
    exact a.attempt_reaches_of_input ev.settings (Signature.checkInput_ok_iff_takes.mpr htakes)
  · exact evaluate_of_ask_error hatom (Signature.checkInput_ok_iff_takes.mpr htakes) he
  · obtain ⟨entry, hentry, rfl⟩ := Option.map_eq_some_iff.mp hatom
    exact Signature.kindAt_of_takesLength (hr.consistent.wellFormed predicate entry hentry)
      htakes.length hindex

/-- The difference of `p` and `q` is asked for; that of `p` and the negated `q` is refused. -/
theorem asked_exactly_when_taken_differences :
    let i := Sample.leftWhen .false
    Sample.tester.RunsRetrieval "testSetMinus" [⟨0⟩, ⟨2⟩] i Sample.threeAtoms ∧
      (∃ a, Sample.tester.registry.find? "testSetMinus" = some a ∧
        ∃ kind, a.signature.kindAt 1 = some kind ∧
          (kind = .tuple ↔ a.signature.fixedInputs ≤ 1)) ∧
      ∃ e, Sample.tester.Refuses "testSetMinus" [⟨0⟩, ⟨3⟩] Sample.threeAtoms e ∧
        (Sample.tester.evaluate "testSetMinus" [⟨0⟩, ⟨3⟩] i Sample.threeAtoms).result =
          .error e := by
  intro i
  have hr : Sample.tester.registry.Registered := by
    have hoffered : (({} : Evaluator).register Bundled.testPlugin).2.registry.Registered :=
      .offer _ .empty
    rwa [Sample.tester_registered] at hoffered
  obtain ⟨a, hatom, hinput⟩ : ∃ a, Sample.tester.registry.find? "testSetMinus" = some a ∧
      a.signature.checkInput Sample.threeAtoms [⟨0⟩, ⟨2⟩] = .ok () := ⟨_, rfl, rfl⟩
  have htakes := Signature.checkInput_ok_iff_takes.mp hinput
  obtain ⟨hruns, hasked, -⟩ :=
    asked_exactly_when_taken hr "testSetMinus" [⟨0⟩, ⟨2⟩] i Sample.threeAtoms
  obtain ⟨-, -, hrefused, -⟩ :=
    asked_exactly_when_taken hr "testSetMinus" [⟨0⟩, ⟨3⟩] i Sample.threeAtoms
  have hnegated : ¬Sample.tester.Takes "testSetMinus" [⟨0⟩, ⟨3⟩] Sample.threeAtoms := by
    rintro ⟨b, -, hb⟩
    exact absurd (hb.usable ⟨3⟩ (by decide)).1 (by decide)
  obtain ⟨e, he, houtcome⟩ := hrefused hnegated
  exact ⟨hruns.mpr ⟨a, hatom, htakes⟩, ⟨a, hatom, (hasked a hatom htakes).2.2 1 (by decide)⟩,
    e, he, congrArg Outcome.result houtcome⟩

end Evaluator

end ExternalAtoms
