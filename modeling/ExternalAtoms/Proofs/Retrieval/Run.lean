import ExternalAtoms.Proofs.Symbol.Growth
import ExternalAtoms.Plugin

/-! # Running retrieval programs

Running a sequence of programs runs the first and, if it returns, the second. Whatever a program
does, the symbol table it leaves is one that requests can make of the table it found.
-/
namespace ExternalAtoms

namespace SymbolTable

theorem checkLiterals_reaches (table : SymbolTable) (literals : List Symbol) :
    Reaches table (table.checkLiterals literals).2 := by
  induction literals generalizing table with
  | nil => exact .refl
  | cons literal rest ih =>
    have hasked := run_reaches (.isAtom literal) table
    unfold checkLiterals
    split
    · dsimp only
      split
      · exact hasked.trans (ih _)
      · exact hasked
    · exact .refl

theorem checkNogood_reaches (table : SymbolTable) (n : Nogood) :
    Reaches table (table.checkNogood n).2 := by
  unfold checkNogood
  split
  · exact .refl
  · exact table.checkLiterals_reaches _

end SymbolTable

open SymbolTable

theorem Workspace.learn_reaches (w : Workspace) (n : Nogood) :
    Reaches w.table (w.learn n).2.table := by
  have hchecked := w.table.checkNogood_reaches n
  unfold learn
  dsimp only
  split <;> exact hchecked

namespace Invocation
variable (call : Invocation)

theorem storeOutputAtom_reaches (table : SymbolTable) (tuple : Tuple) :
    Reaches table (call.storeOutputAtom table tuple).2 := by
  unfold storeOutputAtom
  split
  · exact run_reaches (.function _ _) table
  · exact .refl

theorem storeOutputAtoms_reaches (table : SymbolTable) (tuples : List Tuple) :
    Reaches table (call.storeOutputAtoms table tuples).2 := by
  induction tuples generalizing table with
  | nil => exact .refl
  | cons tuple rest ih =>
    have hfirst := call.storeOutputAtom_reaches table tuple
    simp only [storeOutputAtoms]
    split
    · exact hfirst
    · exact hfirst.trans (ih _)

end Invocation

theorem Action.run_reaches (call : Invocation) (action : Action) (w : Workspace) :
    Reaches w.table (action.run call w).2.table := by
  cases action with
  | store request => exact SymbolTable.run_reaches request w.table
  | outputAtom tuple => exact call.storeOutputAtom_reaches w.table tuple
  | learn n => exact w.learn_reaches n
  | read => exact .refl

/-- The nogood that an action submitted, if this reply accepts it. -/
def Action.accepted : (action : Action) → action.Reply → List Nogood
  | .learn n, .ok () => [n]
  | _, _ => []

theorem Action.pending_run (call : Invocation) (action : Action) (w : Workspace) :
    (action.run call w).2.pending.toList =
      w.pending.toList ++ action.accepted (action.run call w).1 := by
  cases action with
  | store request => simp [run, accepted]
  | outputAtom tuple => simp [run, accepted]
  | read => simp [run, accepted]
  | learn n =>
    change (w.learn n).2.pending.toList = w.pending.toList ++ accepted (.learn n) (w.learn n).1
    unfold Workspace.learn
    dsimp only
    split
    · exact (List.append_nil _).symm
    · exact Array.toList_push

theorem Action.literals_of_accepted (call : Invocation) (action : Action) {w : Workspace}
    {n : Nogood} (h : n ∈ action.accepted (action.run call w).1) : n.literals ≠ [] := by
  cases action with
  | store request => simp [accepted] at h
  | outputAtom tuple => simp [accepted] at h
  | read => simp [accepted] at h
  | learn m =>
    change n ∈ accepted (.learn m) (w.learn m).1 at h
    unfold Workspace.learn at h
    cases hm : m.isEmpty with
    | true => simp [SymbolTable.checkNogood, hm, accepted] at h
    | false =>
      cases hc : (w.table.checkNogood m).1 with
      | error e => simp [hc, accepted] at h
      | ok _ =>
        simp only [hc, accepted, List.mem_singleton] at h
        simpa [h, Nogood.isEmpty] using hm

namespace Retrieval
variable {α β : Type} (call : Invocation)

theorem run_reaches (program : Retrieval α) (w : Workspace) :
    Reaches w.table (program.run call w).2.table := by
  induction program generalizing w with
  | done result => exact .refl
  | perform action next ih => exact (action.run_reaches call w).trans (ih _ _)

theorem forM_cons (program : α → Retrieval Unit) (x : α) (rest : List α) :
    (x :: rest).forM program = program x >>= fun _ => rest.forM program := rfl

@[simp] theorem run_bind (program : Retrieval α) (k : α → Retrieval β) (w : Workspace) :
    (program >>= k).run call w =
      match program.run call w with
      | (.ok value, w') => (k value).run call w'
      | (.error e, w') => (.error e, w') := by
  change (program.bind k).run call w = _
  induction program generalizing w with
  | done result => cases result <;> rfl
  | perform action next ih => exact ih _ _

theorem run_bind_of_ok {program : Retrieval α} {k : α → Retrieval β} {w middle : Workspace} {a : α}
    (h : program.run call w = (.ok a, middle)) :
    (program >>= k).run call w = (k a).run call middle := by
  rw [run_bind, h]

/-- A sequence returns when its first part does and its second part does after it. -/
theorem run_bind_ok {program : Retrieval α} {k : α → Retrieval β} {w w' : Workspace} {b : β} :
    (program >>= k).run call w = (.ok b, w') ↔
      ∃ a middle, program.run call w = (.ok a, middle) ∧ (k a).run call middle = (.ok b, w') := by
  rw [run_bind]
  cases hp : program.run call w with
  | mk result middle =>
    cases result with
    | error e => simp
    | ok a =>
      constructor
      · exact fun h => ⟨a, middle, rfl, h⟩
      · rintro ⟨a', middle', he, h⟩
        obtain ⟨ha, rfl⟩ := Prod.mk.inj he
        obtain rfl := Except.ok.inj ha
        exact h

@[simp] theorem run_pure (value : α) (w : Workspace) :
    (pure value : Retrieval α).run call w = (.ok value, w) := rfl

@[simp] theorem run_fail (e : EvaluationError) (w : Workspace) :
    (fail e : Retrieval α).run call w = (.error e, w) := rfl

@[simp] theorem run_ofStored (result : Except StoreError α) (w : Workspace) :
    (ofStored result).run call w = (result.mapError .store, w) := rfl

@[simp] theorem run_read (w : Workspace) : read.run call w = (.ok w.table, w) := rfl

@[simp] theorem run_constant (text : String) (w : Workspace) :
    (constant text).run call w =
      (.ok (w.table.constant text).1, { w with table := (w.table.constant text).2 }) := rfl

@[simp] theorem run_string (text : String) (w : Workspace) :
    (string text).run call w =
      (.ok (w.table.string text).1, { w with table := (w.table.string text).2 }) := rfl

@[simp] theorem run_integer (value : Int64) (w : Workspace) :
    (integer value).run call w =
      (.ok (w.table.integer value).1, { w with table := (w.table.integer value).2 }) := rfl

@[simp] theorem run_head (s : Symbol) (w : Workspace) :
    (head s).run call w =
      (.ok (w.table.head s).1, { w with table := (w.table.head s).2 }) := rfl

@[simp] theorem run_atom (tuple : Tuple) (w : Workspace) :
    (atom tuple).run call w =
      ((w.table.atom tuple).1.mapError .store, { w with table := (w.table.atom tuple).2 }) := rfl

@[simp] theorem run_negate (s : Symbol) (w : Workspace) :
    (negate s).run call w =
      ((w.table.negate s).1.mapError .store, { w with table := (w.table.negate s).2 }) := rfl

@[simp] theorem run_outputAtom (tuple : Tuple) (w : Workspace) :
    (outputAtom tuple).run call w = ((call.storeOutputAtom w.table tuple).1.mapError .store,
      { w with table := (call.storeOutputAtom w.table tuple).2 }) := rfl

@[simp] theorem run_learn (n : Nogood) (w : Workspace) :
    (learn n).run call w = ((w.learn n).1.mapError .store, (w.learn n).2) := rfl

theorem run_pure_ok {value a : α} {w w' : Workspace} :
    (pure value : Retrieval α).run call w = (.ok a, w') ↔ value = a ∧ w = w' := by
  rw [run_pure, Prod.mk.injEq, Except.ok.injEq]

theorem mapError_eq_ok {result : Except StoreError α} {a : α} :
    result.mapError EvaluationError.store = .ok a ↔ result = .ok a := by
  cases result with
  | error e =>
    change (Except.error (EvaluationError.store e) : Except EvaluationError α) = .ok a ↔ _
    simp
  | ok b =>
    change (Except.ok b : Except EvaluationError α) = .ok a ↔ _
    rw [Except.ok.injEq, Except.ok.injEq]

theorem run_ofStored_ok {result : Except StoreError α} {a : α} {w w' : Workspace} :
    (ofStored result).run call w = (.ok a, w') ↔ result = .ok a ∧ w = w' := by
  rw [run_ofStored, Prod.mk.injEq, mapError_eq_ok]

theorem reaches_of_run {program : Retrieval α} {w w' : Workspace}
    {result : Except EvaluationError α} (h : program.run call w = (result, w')) :
    Reaches w.table w'.table := by
  have hr := program.run_reaches call w
  rwa [h] at hr

/-- The table only grows after the first part of a sequence. -/
theorem run_bind_reaches (program : Retrieval α) (k : α → Retrieval β) (w : Workspace) :
    Reaches (program.run call w).2.table ((program >>= k).run call w).2.table := by
  rw [run_bind]
  split
  · next a middle hrun =>
    rw [hrun]
    exact (k a).run_reaches call middle
  · next e middle hrun =>
    rw [hrun]
    exact .refl

/-- An accepted nogood is the last one pending. -/
theorem pending_of_learn {n : Nogood} {w w' : Workspace}
    (h : (learn n).run call w = (.ok (), w')) : w'.pending = w.pending.push n := by
  rw [run_learn, Prod.mk.injEq] at h
  obtain ⟨hok, rfl⟩ := h
  unfold Workspace.learn at hok ⊢
  dsimp only at hok ⊢
  split
  · next e he =>
    rw [he] at hok
    cases hok
  · rfl

/-- The nogoods that a run submits and that are accepted, in their order. -/
def accepted : Retrieval α → Workspace → List Nogood
  | done _, _ => []
  | perform action next, w =>
    let answered := action.run call w
    action.accepted answered.1 ++ (next answered.1).accepted answered.2

/-- Only nogoods with literals are accepted. -/
theorem literals_of_accepted {program : Retrieval α} {w : Workspace} {n : Nogood}
    (h : n ∈ program.accepted call w) : n.literals ≠ [] := by
  induction program generalizing w with
  | done result => simp [accepted] at h
  | perform action next ih =>
    rcases List.mem_append.mp h with h | h
    · exact action.literals_of_accepted call h
    · exact ih _ h

/-- What is pending after a run are the nogoods accepted in it, after those from before. -/
theorem pending_run (program : Retrieval α) (w : Workspace) :
    (program.run call w).2.pending.toList = w.pending.toList ++ program.accepted call w := by
  induction program generalizing w with
  | done result => simp [run, accepted]
  | perform action next ih =>
    simp only [run, accepted]
    rw [ih, action.pending_run, List.append_assoc]

/-- While it runs, the program performs this action on this workspace. -/
inductive Performs (call : Invocation) (performed : Action) (here : Workspace) :
    Retrieval α → Workspace → Prop
  | now {next : performed.Reply → Retrieval α} :
      Performs call performed here (.perform performed next) here
  | later {action : Action} {next : action.Reply → Retrieval α} {w : Workspace}
      (h : Performs call performed here (next (action.run call w).1) (action.run call w).2) :
      Performs call performed here (.perform action next) w

/-- The table grows to that action, and from there to the end of the run. -/
theorem Performs.reaches {performed : Action} {here : Workspace} {program : Retrieval α}
    {w : Workspace} (h : Performs call performed here program w) :
    Reaches w.table here.table ∧
      Reaches (performed.run call here).2.table (program.run call w).2.table := by
  induction h with
  | now => exact ⟨.refl, run_reaches call _ _⟩
  | @later action next w _ ih => exact ⟨(action.run_reaches call w).trans ih.1, ih.2⟩

/-- The program submits no nogoods. -/
def Silent (program : Retrieval α) : Prop :=
  ∀ call w, (program.run call w).2.pending = w.pending

theorem Silent.pure (value : α) : (pure value : Retrieval α).Silent := fun _ _ => rfl

theorem Silent.fail (e : EvaluationError) : (fail e : Retrieval α).Silent := fun _ _ => rfl

theorem Silent.bind {program : Retrieval α} {k : α → Retrieval β} (hp : program.Silent)
    (hk : ∀ a, (k a).Silent) : (program >>= k).Silent := by
  intro call w
  have hfirst := hp call w
  rw [run_bind]
  cases hr : program.run call w with
  | mk result middle =>
    rw [hr] at hfirst
    cases result with
    | error e => exact hfirst
    | ok a => exact (hk a call middle).trans hfirst

end Retrieval

/-- The nogoods that are accepted while the atom answers a query. -/
def ExternalAtom.accepted (a : ExternalAtom) (q : Query) (table : SymbolTable) : List Nogood :=
  (a.retrieve q).accepted ⟨a.signature, q.input⟩ (.ofTable table)

theorem ExternalAtom.pending_ask (a : ExternalAtom) (q : Query) (table : SymbolTable) :
    (a.ask q table).2.pending.toList = a.accepted q table :=
  (a.retrieve q).pending_run _ _

theorem ExternalAtom.ask_reaches (a : ExternalAtom) (q : Query) (table : SymbolTable) :
    Reaches table (a.ask q table).2.table :=
  (a.retrieve q).run_reaches ⟨a.signature, q.input⟩ (.ofTable table)

end ExternalAtoms
