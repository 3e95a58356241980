import ExternalAtoms.Proofs.Retrieval.Run
import ExternalAtoms.Proofs.Symbol.Content
import ExternalAtoms.Proofs.Symbol.Head
import ExternalAtoms.Proofs.Text.Token
import Mathlib.Data.List.Forall2

/-! # Output atoms in the table

The output atom of a tuple is the stored application of the replacement predicate to the input and
the tuple. Storing it again, at this or any later state of the table, finds the same handle. The
name of the replacement predicate tells what it was made from, and it is an identifier when the
predicate is one, so that output atoms are atoms.
-/
namespace ExternalAtoms
open SymbolTable Text

theorem toList_replacementName (predicate : String) (arity : Nat) :
    (replacementName predicate arity).toList =
      "aux_t_".toList ++ ((Nat.repr arity).toList ++ '_' :: predicate.toList) := by
  simp [replacementName, List.append_assoc]

theorem replacementName_injective {predicate predicate' : String} {arity arity' : Nat}
    (h : replacementName predicate arity = replacementName predicate' arity') :
    predicate = predicate' ∧ arity = arity' := by
  have hlist := congrArg String.toList h
  rw [toList_replacementName, toList_replacementName] at hlist
  obtain ⟨harity, hrest⟩ :=
    repr_append_injective (stopsAt_cons rfl) (stopsAt_cons rfl) (List.append_cancel_left hlist)
  exact ⟨String.toList_inj.mp (List.cons.inj hrest).2, harity⟩

theorem isIdentifier_replacementName {predicate : String} (h : isIdentifier predicate = true)
    (arity : Nat) : isIdentifier (replacementName predicate arity) = true := by
  have hchars : ∀ c ∈ (Nat.repr arity).toList ++ '_' :: predicate.toList,
      isIdentifierChar c = true := by
    intro c hc
    rw [List.mem_append, List.mem_cons] at hc
    rcases hc with hc | rfl | hc
    · simp [isIdentifierChar, Char.isAlphanum, isDigit_of_mem_repr c hc]
    · rfl
    · exact isIdentifierChar_of_mem h c hc
  have hrest : ((Nat.repr arity).toList ++ '_' :: predicate.toList).all isIdentifierChar = true :=
    List.all_eq_true.mpr hchars
  rw [isIdentifier, toList_replacementName, show "aux_t_".toList = 'a' :: "ux_t_".toList from rfl,
    List.cons_append, List.dropWhile_cons_of_neg (by decide), isIdentifierBody, List.all_append,
    hrest]
  rfl

theorem SymbolTable.Stored.isAtom {table : SymbolTable} {o : Symbol} {name : String}
    {args : List Symbol} (h : table.Stored o (.application name args))
    (hname : isIdentifier name = true) : (table.isAtom o).1 = true := by
  obtain ⟨-, hc⟩ := h
  rw [isAtom_iff]
  cases args with
  | nil =>
    obtain ⟨id, ht, hid⟩ := content?_constant_iff.mp hc
    exact ⟨id, _, ht, rfl, isPredicateName_iff.mpr ⟨name, hid, hname⟩⟩
  | cons arg rest =>
    obtain ⟨id, ht, hid⟩ := content?_function_iff.mp hc
    exact ⟨id, _, ht, rfl, isPredicateName_iff.mpr ⟨name, hid, hname⟩⟩

/-- This handle is the stored output atom of the tuple. -/
def Invocation.IsOutputAtom (call : Invocation) (table : SymbolTable) (t : Tuple) (o : Symbol) :
    Prop :=
  t.length = call.signature.outputArity ∧ table.Stored o (.application
    (replacementName call.signature.predicate (call.input ++ t).length) (call.input ++ t))

/-- The output atom of the tuple has this handle, and asking for it stores nothing. -/
def Invocation.OutputOf (call : Invocation) (table : SymbolTable) (t : Tuple) (o : Symbol) : Prop :=
  call.storeOutputAtom table t = (.ok o, table)

namespace Invocation
variable {call : Invocation} {table later : SymbolTable} {t : Tuple} {o : Symbol}

theorem OutputOf.unique {o' : Symbol} (h : call.OutputOf table t o)
    (h' : call.OutputOf table t o') : o = o' := Except.ok.inj (congrArg Prod.fst (h.symm.trans h'))

theorem outputOf_of_store (h : (call.storeOutputAtom table t).1 = .ok o)
    (hg : Grows (call.storeOutputAtom table t).2 later) : call.OutputOf later t o := by
  unfold OutputOf
  unfold storeOutputAtom at h hg ⊢
  split at h
  · next hlength =>
    rw [if_pos hlength] at hg ⊢
    exact function_again h hg
  · simp at h

theorem OutputOf.extend (h : call.OutputOf table t o) (hg : Grows table later) :
    call.OutputOf later t o := by
  refine outputOf_of_store (congrArg Prod.fst h) ?_
  rwa [show (call.storeOutputAtom table t).2 = table from congrArg Prod.snd h]

/-- Storing one output atom after another gives the handles of the output atoms, place by place. -/
theorem storeOutputAtoms_outputOf (ha : Admits table) {tuples : List Tuple} {outputs : List Symbol}
    (ho : (call.storeOutputAtoms table tuples).1 = .ok outputs)
    (hg : Grows (call.storeOutputAtoms table tuples).2 later) :
    List.Forall₂ (call.OutputOf later) tuples outputs := by
  induction tuples generalizing table outputs with
  | nil =>
    obtain rfl := Except.ok.inj ho
    exact .nil
  | cons t rest ih =>
    have hfirst := (call.storeOutputAtom_reaches table t).grows ha
    have hrest := (call.storeOutputAtoms_reaches _ rest).grows (hfirst.admits ha)
    simp only [storeOutputAtoms] at ho hg
    cases hs : (call.storeOutputAtom table t).1 with
    | error e => simp [hs] at ho
    | ok output =>
      simp only [hs] at ho hg
      cases hos : (call.storeOutputAtoms (call.storeOutputAtom table t).2 rest).1 with
      | error e => simp [hos, Except.map] at ho
      | ok others =>
        simp only [hos, Except.map, Except.ok.injEq] at ho
        subst ho
        exact .cons (outputOf_of_store hs (hrest.trans hg)) (ih (hfirst.admits ha) hos hg)

theorem storeOutputAtoms_of_outputOf {tuples : List Tuple} {outputs : List Symbol}
    (h : List.Forall₂ (call.OutputOf table) tuples outputs) :
    call.storeOutputAtoms table tuples = (.ok outputs, table) := by
  induction h with
  | nil => rfl
  | @cons t o tuples outputs ho _ ih =>
    rw [storeOutputAtoms, show call.storeOutputAtom table t = (.ok o, table) from ho]
    simp only [ih, Except.map]

theorem storeOutputAtoms_again (ha : Admits table) {tuples : List Tuple} {outputs : List Symbol}
    (ho : (call.storeOutputAtoms table tuples).1 = .ok outputs)
    (hg : Grows (call.storeOutputAtoms table tuples).2 later) :
    call.storeOutputAtoms later tuples = (.ok outputs, later) :=
  storeOutputAtoms_of_outputOf (storeOutputAtoms_outputOf ha ho hg)

theorem IsOutputAtom.extend (h : call.IsOutputAtom table t o) (hl : Extends table later) :
    call.IsOutputAtom later t o := ⟨h.1, hl.stored h.2⟩

theorem isOutputAtom_of_store (hw : WellFormed table)
    (ho : (call.storeOutputAtom table t).1 = .ok o)
    (hb : (call.storeOutputAtom table t).2.size ≤ 2 ^ 31) :
    call.IsOutputAtom (call.storeOutputAtom table t).2 t o := by
  unfold storeOutputAtom at ho hb ⊢
  split at ho
  · next hlen =>
    rw [if_pos hlen] at hb ⊢
    exact ⟨hlen, hw.stored_function ho hb⟩
  · simp at ho

theorem IsOutputAtom.store_eq (hw : WellFormed table) (h : call.IsOutputAtom table t o) :
    call.storeOutputAtom table t = (.ok o, table) := by
  rw [storeOutputAtom, if_pos h.1]
  exact hw.function_of_stored h.2

theorem IsOutputAtom.isAtom (h : call.IsOutputAtom table t o)
    (hname : isIdentifier call.signature.predicate = true) : (table.isAtom o).1 = true :=
  h.2.isAtom (isIdentifier_replacementName hname _)

theorem IsOutputAtom.unique (hw : WellFormed table) {o' : Symbol} (h : call.IsOutputAtom table t o)
    (h' : call.IsOutputAtom table t o') : o = o' := hw.eq_of_stored h.2 h'.2

theorem IsOutputAtom.arguments (h : call.IsOutputAtom table t o) :
    table.arguments o = call.input ++ t := by
  have hread := h.2.readsAs
  cases hargs : call.input ++ t with
  | nil =>
    rw [hargs] at hread
    exact hread.2.2.2
  | cons arg rest =>
    rw [hargs] at hread
    exact hread.2.2.2

/-- An output atom tells the predicate and the arguments that it was made from. -/
theorem IsOutputAtom.injective {call' : Invocation} {t' : Tuple} (h : call.IsOutputAtom table t o)
    (h' : call'.IsOutputAtom table t' o) :
    call.signature.predicate = call'.signature.predicate ∧ call.input ++ t = call'.input ++ t' := by
  obtain ⟨hname, hargs⟩ :=
    Content.application_injective (Option.some.inj (h.2.2.symm.trans h'.2.2))
  exact ⟨(replacementName_injective hname).1, hargs⟩

theorem storeOutputAtoms_ok (hw : WellFormed table) {tuples : List Tuple} {outputs : List Symbol}
    (ho : (call.storeOutputAtoms table tuples).1 = .ok outputs)
    (hb : (call.storeOutputAtoms table tuples).2.size ≤ 2 ^ 31) :
    List.Forall₂ (call.IsOutputAtom (call.storeOutputAtoms table tuples).2) tuples outputs := by
  induction tuples generalizing table outputs with
  | nil =>
    obtain rfl := Except.ok.inj ho
    exact .nil
  | cons t rest ih =>
    have hfirst := call.storeOutputAtom_reaches table t
    have hrest := call.storeOutputAtoms_reaches (call.storeOutputAtom table t).2 rest
    simp only [storeOutputAtoms] at ho hb ⊢
    cases hs : (call.storeOutputAtom table t).1 with
    | error e => simp [hs] at ho
    | ok output =>
      simp only [hs] at ho hb ⊢
      have hle := Nat.le_trans hrest.size_le hb
      cases hos : (call.storeOutputAtoms (call.storeOutputAtom table t).2 rest).1 with
      | error e => simp [hos, Except.map] at ho
      | ok others =>
        simp only [hos, Except.map, Except.ok.injEq] at ho
        subst ho
        exact .cons ((isOutputAtom_of_store hw hs hle).extend hrest.toExtends)
          (ih (hw.reaches hfirst hle) hos hb)

end Invocation

end ExternalAtoms
