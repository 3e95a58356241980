import ExternalAtoms.Proofs.Interpretation.Alike
import ExternalAtoms.Proofs.Nogood.Literals
import ExternalAtoms.Proofs.Retrieval.Run

/-! # Programs run in two sessions

Two runs in two sessions agree when they fail together, or return related results and leave nogoods
over alike literals pending. A sequence agrees when its parts do, and so do programs that store the
same content. What is pending in either session beforehand, and how its table is numbered, is of no
consequence.
-/
namespace ExternalAtoms
open SymbolTable

variable {table table' later later' : SymbolTable}

/-- The nogoods are over alike literals. -/
def Nogood.Alike (table table' : SymbolTable) (n n' : Nogood) : Prop :=
  Paired (table.Alike table') (· ∈ n.literals) (· ∈ n'.literals)

namespace Nogood.Alike
variable {n n' : Nogood}

theorem symm (h : Nogood.Alike table table' n n') : Nogood.Alike table' table n' n :=
  Paired.symm h fun _ _ hl => hl.symm

theorem ofList {literals literals' : List Symbol}
    (h : List.Forall₂ (table.Alike table') literals literals') :
    Nogood.Alike table table' (.ofList literals) (.ofList literals') := by
  constructor
  · intro l hl
    obtain ⟨l', hmem⟩ := exists_mem_zip_of_forall₂ h (mem_ofList.mp hl)
    exact ⟨l', mem_ofList.mpr (List.of_mem_zip hmem).2, List.forall₂_zip h hmem⟩
  · intro l' hl'
    obtain ⟨l, hl, hsame⟩ := exists_of_mem_forall₂ h (mem_ofList.mp hl')
    exact ⟨l, mem_ofList.mpr hl, hsame⟩

theorem extend (h : Nogood.Alike table table' n n') (ha : Admits table) (hl : Extends table later)
    (ha' : Admits table') (hl' : Extends table' later') : Nogood.Alike later later' n n' :=
  Paired.imp h fun _ _ hs => hs.extend ha hl ha' hl'

theorem proper (hw : WellFormed table) (h : Nogood.Alike table table' n n') (hn : n.Proper) :
    n'.Proper := by
  obtain ⟨hne, hcomplement⟩ := hn
  constructor
  · obtain ⟨l, hl⟩ := List.exists_mem_of_ne_nil _ hne
    obtain ⟨l', hl', -⟩ := h.forth l hl
    exact List.ne_nil_of_mem hl'
  · intro l' hl' hflip'
    obtain ⟨l, hl, hsame⟩ := h.back l' hl'
    obtain ⟨m, hm, hsame'⟩ := h.back l'.flip hflip'
    obtain rfl := hsame'.left_unique hw hsame.flip
    exact hcomplement l hl hm

end Nogood.Alike

structure Answer.Alike (table table' : SymbolTable) (answer answer' : Answer) : Prop where
  trueTuples : Paired (table.AlikeTuple table') (· ∈ answer.trueTuples) (· ∈ answer'.trueTuples)
  unknownTuples :
    Paired (table.AlikeTuple table') (· ∈ answer.unknownTuples) (· ∈ answer'.unknownTuples)

namespace Answer.Alike
variable {answer answer' : Answer}

theorem symm (h : Answer.Alike table table' answer answer') :
    Answer.Alike table' table answer' answer where
  trueTuples := h.trueTuples.symm fun _ _ ht => ht.symm
  unknownTuples := h.unknownTuples.symm fun _ _ ht => ht.symm

theorem extend (h : Answer.Alike table table' answer answer') (ha : Admits table)
    (hl : Extends table later) (ha' : Admits table') (hl' : Extends table' later') :
    Answer.Alike later later' answer answer' where
  trueTuples := h.trueTuples.imp fun _ _ ht => ht.extend ha hl ha' hl'
  unknownTuples := h.unknownTuples.imp fun _ _ ht => ht.extend ha hl ha' hl'

end Answer.Alike

/-- The queries have alike inputs, and alike interpretations that were built on their tables. -/
structure Query.Alike (table table' : SymbolTable) (q q' : Query) : Prop where
  built : q.interpretation.BuiltOn table
  built' : q'.interpretation.BuiltOn table'
  input : table.AlikeTuple table' q.input q'.input
  interpretation : Interpretation.Alike table table' q.interpretation q'.interpretation

namespace Query.Alike
variable {q q' : Query}

theorem symm (h : Query.Alike table table' q q') : Query.Alike table' table q' q where
  built := h.built'
  built' := h.built
  input := h.input.symm
  interpretation := h.interpretation.symm

theorem extend (h : Query.Alike table table' q q') (hr : Reaches table later)
    (hr' : Reaches table' later') : Query.Alike later later' q q' where
  built := h.built.extend hr
  built' := h.built'.extend hr'
  input := h.input.extend h.built.reached.admits hr.toExtends h.built'.reached.admits hr'.toExtends
  interpretation := h.interpretation.extend h.built.reached.admits hr.toExtends
    h.built'.reached.admits hr'.toExtends

theorem arg? (h : Query.Alike table table' q q') (index : Nat) :
    (q.arg? index = none ∧ q'.arg? index = none) ∨
      ∃ s s', q.arg? index = some s ∧ q'.arg? index = some s' ∧ table.Alike table' s s' :=
  getElem?_of_forall₂ h.input index

theorem exists_arg? (h : Query.Alike table table' q q') {index : Nat} {s : Symbol}
    (hs : q.arg? index = some s) : ∃ s', q'.arg? index = some s' ∧ table.Alike table' s s' := by
  rcases h.arg? index with ⟨hnone, -⟩ | ⟨u, s', hu, hs', hsame⟩
  · rw [hs] at hnone
    cases hnone
  · obtain rfl := Option.some.inj (hs.symm.trans hu)
    exact ⟨s', hs', hsame⟩

end Query.Alike

/-- The tables are well formed, and the pending nogoods are over alike literals. -/
structure Workspace.Alike (w w' : Workspace) : Prop where
  wellFormed : WellFormed w.table
  wellFormed' : WellFormed w'.table
  pending : Paired (Nogood.Alike w.table w'.table) (· ∈ w.pending.toList) (· ∈ w'.pending.toList)

namespace Workspace.Alike
variable {w w' : Workspace}

theorem grow (h : w.Alike w') (hr : Reaches w.table later) (hr' : Reaches w'.table later')
    (hb : later.size ≤ 2 ^ 31) (hb' : later'.size ≤ 2 ^ 31) :
    Workspace.Alike ⟨later, w.pending⟩ ⟨later', w'.pending⟩ where
  wellFormed := h.wellFormed.reaches hr hb
  wellFormed' := h.wellFormed'.reaches hr' hb'
  pending := h.pending.imp fun _ _ hn =>
    hn.extend h.wellFormed.admits hr.toExtends h.wellFormed'.admits hr'.toExtends

end Workspace.Alike

namespace Retrieval
variable {α β γ δ : Type} {call call' : Invocation} {w w' : Workspace}

/-- Both runs have failed, or they have returned related results and left alike workspaces. -/
inductive Together (R : SymbolTable → SymbolTable → α → β → Prop) :
    Except EvaluationError α × Workspace → Except EvaluationError β × Workspace → Prop
  | failed (e e' : EvaluationError) (w w' : Workspace) : Together R (.error e, w) (.error e', w')
  | returned {a : α} {b : β} {w w' : Workspace} (h : R w.table w'.table a b) (hw : w.Alike w') :
      Together R (.ok a, w) (.ok b, w')

theorem Together.returned_of_ok {R : SymbolTable → SymbolTable → α → β → Prop}
    {first : Except EvaluationError α × Workspace} {second : Except EvaluationError β × Workspace}
    (h : Together R first second) {a : α} (ha : first.1 = .ok a) :
    ∃ b, second.1 = .ok b ∧ R first.2.table second.2.table a b ∧ first.2.Alike second.2 := by
  cases h with
  | failed e e' w w' => cases ha
  | returned hab hw =>
    obtain rfl := Except.ok.inj ha
    exact ⟨_, rfl, hab, hw⟩

theorem Together.of_succeeds {R : SymbolTable → SymbolTable → α → β → Prop}
    {first : Except EvaluationError α × Workspace} {second : Except EvaluationError β × Workspace}
    (hiff : (∃ a v, first = (.ok a, v)) ↔ ∃ b v', second = (.ok b, v'))
    (hok : ∀ {a v b v'}, first = (.ok a, v) → second = (.ok b, v') →
      R v.table v'.table a b ∧ v.Alike v') : Together R first second := by
  obtain ⟨result, v⟩ := first
  obtain ⟨result', v'⟩ := second
  cases result with
  | error e =>
    cases result' with
    | error e' => exact .failed e e' v v'
    | ok b =>
      obtain ⟨a, _, ha⟩ := hiff.mpr ⟨b, v', rfl⟩
      cases ha
  | ok a =>
    obtain ⟨b, _, hb⟩ := hiff.mp ⟨a, v, rfl⟩
    obtain ⟨rfl, rfl⟩ := Prod.mk.inj hb
    obtain ⟨hab, hv⟩ := hok rfl rfl
    exact .returned hab hv

/-- Unless a table outgrows its bound, the programs fail together or return related results. -/
def Agree (call call' : Invocation) (w w' : Workspace)
    (R : SymbolTable → SymbolTable → α → β → Prop) (program : Retrieval α)
    (program' : Retrieval β) : Prop :=
  (program.run call w).2.table.size ≤ 2 ^ 31 → (program'.run call' w').2.table.size ≤ 2 ^ 31 →
    Together R (program.run call w) (program'.run call' w')

variable {R : SymbolTable → SymbolTable → α → β → Prop}
  {S : SymbolTable → SymbolTable → γ → δ → Prop}

theorem agree_pure {a : α} {b : β} (hw : w.Alike w') (h : R w.table w'.table a b) :
    Agree call call' w w' R (pure a) (pure b) := fun _ _ => .returned h hw

theorem agree_fail (e e' : EvaluationError) :
    Agree call call' w w' R (fail e : Retrieval α) (fail e' : Retrieval β) :=
  fun _ _ => .failed e e' w w'

theorem agree_of_ok {program : Retrieval α} {program' : Retrieval β} {a : α} {b : β}
    (hw : w.Alike w') (hp : program.run call w = (.ok a, w))
    (hp' : program'.run call' w' = (.ok b, w')) (h : R w.table w'.table a b) :
    Agree call call' w w' R program program' := by
  intro _ _
  rw [hp, hp']
  exact .returned h hw

/-- Values that are the same in both sessions. -/
def Same (_ _ : SymbolTable) (a b : α) : Prop := a = b

theorem agree_ofStored {result result' : Except StoreError α} (hw : w.Alike w')
    (h : result = result') :
    Agree call call' w w' Same (ofStored result) (ofStored result') := by
  subst h
  cases result with
  | error e => exact agree_fail (.store e) (.store e)
  | ok a => exact agree_pure hw rfl

theorem Agree.bind {program : Retrieval α} {program' : Retrieval β} {k : α → Retrieval γ}
    {k' : β → Retrieval δ} (h : Agree call call' w w' R program program')
    (hk : ∀ {a : α} {b : β} {v v' : Workspace}, R v.table v'.table a b → v.Alike v' →
      Reaches w.table v.table → Reaches w'.table v'.table → Agree call call' v v' S (k a) (k' b)) :
    Agree call call' w w' S (program >>= k) (program' >>= k') := by
  intro hb hb'
  have hfirst := h (Nat.le_trans (run_bind_reaches call program k w).size_le hb)
    (Nat.le_trans (run_bind_reaches call' program' k' w').size_le hb')
  have hr := program.run_reaches call w
  have hr' := program'.run_reaches call' w'
  rw [run_bind] at hb ⊢
  rw [run_bind] at hb' ⊢
  revert hfirst hr hr' hb hb'
  generalize program.run call w = first
  generalize program'.run call' w' = first'
  intro hb hb' hfirst hr hr'
  cases hfirst with
  | failed e e' v v' => exact .failed e e' v v'
  | returned hab hv => exact hk hab hv hr hr' hb hb'

theorem Agree.bind_same {program program' : Retrieval α} {k : α → Retrieval γ}
    {k' : α → Retrieval δ} (h : Agree call call' w w' Same program program')
    (hk : ∀ {v v' : Workspace} (a : α), v.Alike v' → Reaches w.table v.table →
      Reaches w'.table v'.table → Agree call call' v v' S (k a) (k' a)) :
    Agree call call' w w' S (program >>= k) (program' >>= k') := by
  refine h.bind fun hab hv hr hr' => ?_
  obtain rfl := hab
  exact hk _ hv hr hr'

theorem agree_of_read {k : SymbolTable → Retrieval α} {k' : SymbolTable → Retrieval β}
    (h : Agree call call' w w' R (k w.table) (k' w'.table)) :
    Agree call call' w w' R (read >>= k) (read >>= k') := h

theorem agree_of_stored {program program' : Retrieval Symbol} {s s' : Symbol} {c : Content}
    (hw : w.Alike w') (hp : program.run call w = (.ok s, ⟨later, w.pending⟩))
    (hp' : program'.run call' w' = (.ok s', ⟨later', w'.pending⟩))
    (hs : later.size ≤ 2 ^ 31 → later.Stored s c) (hs' : later'.size ≤ 2 ^ 31 → later'.Stored s' c)
    (hc : Content.Related (later.Alike later') c c) :
    Agree call call' w w' SymbolTable.Alike program program' := by
  intro hb hb'
  have hr := reaches_of_run call hp
  have hr' := reaches_of_run call' hp'
  rw [hp] at hb ⊢
  rw [hp'] at hb' ⊢
  have hgrown := hw.grow hr hr' hb hb'
  exact .returned (Alike.of_stored hgrown.wellFormed hgrown.wellFormed' (hs hb) (hs' hb') hc) hgrown

theorem agree_constant (hw : w.Alike w') (text : String) :
    Agree call call' w w' SymbolTable.Alike (constant text) (constant text) :=
  agree_of_stored hw (run_constant call text w) (run_constant call' text w')
    hw.wellFormed.stored_constant hw.wellFormed'.stored_constant (.constant text)

theorem agree_string (hw : w.Alike w') (text : String) :
    Agree call call' w w' SymbolTable.Alike (string text) (string text) :=
  agree_of_stored hw (run_string call text w) (run_string call' text w')
    hw.wellFormed.stored_constant hw.wellFormed'.stored_constant (.constant _)

theorem agree_integer (hw : w.Alike w') (value : Int64) :
    Agree call call' w w' SymbolTable.Alike (integer value) (integer value) :=
  agree_of_stored hw (run_integer call value w) (run_integer call' value w')
    hw.wellFormed.stored_integer hw.wellFormed'.stored_integer (.integer value)

end Retrieval

end ExternalAtoms
