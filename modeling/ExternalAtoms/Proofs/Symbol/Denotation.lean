import ExternalAtoms.Proofs.Symbol.WellFormed
import ExternalAtoms.Proofs.Traversal

/-! # The trees that handles denote

In a well-formed table the tree of a handle is made from the trees of its arguments, so every known
handle denotes one, positive handles denote different trees, and a handle keeps its tree while the
table grows.
-/
namespace ExternalAtoms.SymbolTable
variable {table : SymbolTable}

theorem nameText_of_resolve? {name : NameId} {text : String}
    (h : table.names.resolve? name = some text) : table.nameText name = text := by
  rw [nameText, h, Option.getD_some]

namespace WellFormed

/-- The tree does not depend on the depth allowed, once that passes the index. -/
theorem treeWithin_eq (h : WellFormed table) {d d' : Nat} {s : Symbol} (hd : s.index < d)
    (hd' : s.index < d') : table.treeWithin d s = table.treeWithin d' s := by
  induction d generalizing s d' with
  | zero => omega
  | succ d ih =>
    obtain ⟨d', rfl⟩ : ∃ n, d' = n + 1 := ⟨d' - 1, by omega⟩
    simp only [treeWithin]
    cases hr : table.resolve? s with
    | none => rfl
    | some t =>
      cases t with
      | constant name => rfl
      | integer value => rfl
      | function name args =>
        have hargs : args.mapM (table.treeWithin d) = args.mapM (table.treeWithin d') := by
          refine mapM_congr fun arg ha => ?_
          have hlt := ((h.admissible hr).2.2 arg ha).2
          exact ih (by omega) (by omega)
        dsimp only
        rw [hargs]

theorem tree_function (h : WellFormed table) {s : Symbol} {name : NameId} {args : List Symbol}
    (hr : table.resolve? s = some (.function name args)) :
    table.tree s = (args.mapM table.tree).map (.function (table.nameText name)) := by
  have hargs : args.mapM (table.treeWithin s.index) = args.mapM table.tree := by
    refine mapM_congr fun arg ha => ?_
    have hlt := ((h.admissible hr).2.2 arg ha).2
    exact h.treeWithin_eq hlt (Nat.lt_succ_self _)
  rw [tree, treeWithin, hr]
  dsimp only
  rw [hargs]
  cases args.mapM table.tree <;> rfl

end WellFormed

theorem tree_constant {s : Symbol} {name : NameId}
    (hr : table.resolve? s = some (.constant name)) :
    table.tree s = .ok (.constant (table.nameText name)) := by
  rw [tree, treeWithin, hr]

theorem tree_integer {s : Symbol} {value : Int64}
    (hr : table.resolve? s = some (.integer value)) : table.tree s = .ok (.integer value) := by
  rw [tree, treeWithin, hr]

theorem tree_unknown {s : Symbol} (hr : table.resolve? s = none) :
    table.tree s = .error (.unknownSymbol s.index) := by
  rw [tree, treeWithin, hr]

theorem known_of_tree {s : Symbol} {a : Tree} (h : table.tree s = .ok a) :
    table.isKnown s = true := by
  by_contra hs
  rw [Bool.not_eq_true, ← resolve?_eq_none_iff] at hs
  simp [tree_unknown hs] at h

namespace Admits

theorem resolve?_constant (h : Admits table) {s : Symbol} {name : NameId}
    (hr : table.resolve? s = some (.constant name)) :
    table.names.resolve? name = some (table.nameText name) := by
  obtain ⟨text, ht⟩ := h.name_of_constant hr
  rw [nameText_of_resolve? ht, ht]

theorem resolve?_function (h : Admits table) {s : Symbol} {name : NameId}
    {args : List Symbol} (hr : table.resolve? s = some (.function name args)) :
    table.names.resolve? name = some (table.nameText name) := by
  obtain ⟨text, ht⟩ := h.name_of_function hr
  rw [nameText_of_resolve? ht, ht]

theorem tree_extends (h : Admits table) {later : SymbolTable} (hl : Extends table later)
    {s : Symbol} {a : Tree} (ha : table.tree s = .ok a) : later.tree s = .ok a := by
  -- A handle fixes the depth of its own tree only; its arguments are read at what is left of it.
  have within : ∀ (d : Nat) (s : Symbol) (a : Tree), table.treeWithin d s = .ok a →
      later.treeWithin d s = .ok a := by
    intro d
    induction d with
    | zero => intro s a ha; simp [treeWithin] at ha
    | succ d ih =>
      intro s a ha
      simp only [treeWithin] at ha ⊢
      cases hr : table.resolve? s with
      | none => simp [hr] at ha
      | some t =>
        rw [hl.resolve hr]
        cases t with
        | constant name =>
          simpa [hr, nameText_of_resolve? (hl.name (h.resolve?_constant hr))] using ha
        | integer value => simpa [hr] using ha
        | function name args =>
          simp only [hr] at ha ⊢
          rw [nameText_of_resolve? (hl.name (h.resolve?_function hr))]
          cases hm : args.mapM (table.treeWithin d) with
          | error e => simp [hm, bind, Except.bind] at ha
          | ok trees =>
            rw [mapM_ok_mono (fun x _ y hy => ih x y hy) hm]
            simpa [hm] using ha
  exact within _ _ _ ha

end Admits

namespace WellFormed

theorem tree_ok (h : WellFormed table) {s : Symbol} (hs : table.isKnown s = true) :
    ∃ a, table.tree s = .ok a := by
  induction hi : s.index using Nat.strongRecOn generalizing s with
  | ind i ih =>
    obtain ⟨t, hr⟩ := isKnown_iff.mp hs
    cases t with
    | constant name => exact ⟨_, tree_constant hr⟩
    | integer value => exact ⟨_, tree_integer hr⟩
    | function name args =>
      have hargs : ∀ arg ∈ args, ∃ a, table.tree arg = .ok a := by
        intro arg ha
        have hlt := ((h.admissible hr).2.2 arg ha).2
        have hsize := hs
        simp only [isKnown, decide_eq_true_eq] at hsize
        exact ih arg.index (hi ▸ hlt) (by simp only [isKnown, decide_eq_true_eq]; omega) rfl
      obtain ⟨trees, ht⟩ := mapM_ok_of_forall hargs
      exact ⟨_, by rw [h.tree_function hr, ht]; rfl⟩

theorem tree_function_ok (h : WellFormed table) {s : Symbol} {name : NameId} {args : List Symbol}
    (hr : table.resolve? s = some (.function name args)) {a : Tree} (ha : table.tree s = .ok a) :
    ∃ trees, args.mapM table.tree = .ok trees ∧ a = .function (table.nameText name) trees := by
  rw [h.tree_function hr] at ha
  cases ht : args.mapM table.tree with
  | error e => simp [ht, Except.map] at ha
  | ok trees =>
    simp only [ht, Except.map, Except.ok.injEq] at ha
    exact ⟨trees, rfl, ha.symm⟩

/-- Positive handles that denote the same tree are equal. -/
theorem eq_of_tree (h : WellFormed table) {s u : Symbol} (hs : s.isNegated = false)
    (hu : u.isNegated = false) {a : Tree} (hsa : table.tree s = .ok a)
    (hua : table.tree u = .ok a) : s = u := by
  -- Arguments have smaller indices, so equal argument trees already give equal arguments.
  induction hi : s.index using Nat.strongRecOn generalizing s u a with
  | ind i ih =>
    obtain ⟨t, hst⟩ := isKnown_iff.mp (known_of_tree hsa)
    obtain ⟨v, huv⟩ := isKnown_iff.mp (known_of_tree hua)
    suffices he : t = v from h.unique hs hu hst (he ▸ huv)
    cases t with
    | constant m =>
      obtain rfl := Except.ok.inj ((tree_constant hst).symm.trans hsa)
      cases v with
      | constant n =>
        rw [tree_constant huv, Except.ok.injEq, Tree.constant.injEq] at hua
        rw [NameTable.resolve?_injective (h.admits.resolve?_constant hst)
          (hua ▸ h.admits.resolve?_constant huv)]
      | integer value => simp [tree_integer huv] at hua
      | function n args =>
        obtain ⟨trees, -, ha⟩ := h.tree_function_ok huv hua
        cases ha
    | integer value =>
      obtain rfl := Except.ok.inj ((tree_integer hst).symm.trans hsa)
      cases v with
      | constant n => simp [tree_constant huv] at hua
      | integer value' =>
        rw [tree_integer huv, Except.ok.injEq, Tree.integer.injEq] at hua
        rw [hua]
      | function n args =>
        obtain ⟨trees, -, ha⟩ := h.tree_function_ok huv hua
        cases ha
    | function m args =>
      obtain ⟨trees, hm, rfl⟩ := h.tree_function_ok hst hsa
      cases v with
      | constant n => simp [tree_constant huv] at hua
      | integer value => simp [tree_integer huv] at hua
      | function n args' =>
        obtain ⟨trees', hn, ha⟩ := h.tree_function_ok huv hua
        obtain ⟨htext, rfl⟩ := Tree.function.inj ha
        have hname := NameTable.resolve?_injective (h.admits.resolve?_function hst)
          (htext ▸ h.admits.resolve?_function huv)
        have hargs : args = args' := by
          refine eq_of_mapM_ok (fun x hx x' hx' y hy hy' => ?_) hm hn
          obtain ⟨hp, hlt⟩ := (h.admissible hst).2.2 x hx
          exact ih x.index (hi ▸ hlt) hp ((h.admissible huv).2.2 x' hx').1 hy hy' rfl
        rw [hname, hargs]

theorem tree_extends (h : WellFormed table) {later : SymbolTable} (hl : Extends table later)
    {s : Symbol} {a : Tree} (ha : table.tree s = .ok a) : later.tree s = .ok a :=
  h.admits.tree_extends hl ha

end WellFormed

end ExternalAtoms.SymbolTable
