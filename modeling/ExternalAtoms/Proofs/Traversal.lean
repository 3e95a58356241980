import Mathlib.Data.List.Forall2
import Mathlib.Data.List.Perm.Subperm

/-! # Traversals that may fail

A traversal of a list succeeds exactly when every element does, and then gives the results in order.
Lists related place by place have corresponding elements.
-/
namespace ExternalAtoms

variable {ε α β : Type} {f g : α → Except ε β}

theorem exists_error_iff {x : Except ε α} : (∃ e, x = .error e) ↔ ¬∃ a, x = .ok a := by
  cases x <;> simp

theorem exists_of_mem_forall₂ {R : α → β → Prop} {xs : List α} {ys : List β}
    (h : List.Forall₂ R xs ys) {y : β} (hy : y ∈ ys) : ∃ x ∈ xs, R x y := by
  induction h with
  | nil => cases hy
  | @cons x z xs ys hx _ ih =>
    rcases List.mem_cons.mp hy with rfl | hy
    · exact ⟨x, List.mem_cons_self, hx⟩
    · obtain ⟨x', hx', hfx⟩ := ih hy
      exact ⟨x', List.mem_cons_of_mem _ hx', hfx⟩

theorem exists_mem_zip_of_forall₂ {R : α → β → Prop} {xs : List α} {ys : List β}
    (h : List.Forall₂ R xs ys) {x : α} (hx : x ∈ xs) : ∃ y, (x, y) ∈ xs.zip ys := by
  induction h with
  | nil => cases hx
  | @cons z y xs ys _ _ ih =>
    rcases List.mem_cons.mp hx with rfl | hx
    · exact ⟨y, List.mem_cons_self⟩
    · obtain ⟨y', hy'⟩ := ih hx
      exact ⟨y', List.mem_cons_of_mem _ hy'⟩

theorem getElem?_of_forall₂ {R : α → β → Prop} {xs : List α} {ys : List β}
    (h : List.Forall₂ R xs ys) (n : Nat) :
    (xs[n]? = none ∧ ys[n]? = none) ∨ ∃ x y, xs[n]? = some x ∧ ys[n]? = some y ∧ R x y := by
  induction h generalizing n with
  | nil => exact Or.inl ⟨rfl, rfl⟩
  | @cons x y xs ys hx _ ih =>
    cases n with
    | zero => exact Or.inr ⟨x, y, rfl, rfl, hx⟩
    | succ n => exact ih n

/-- Different things have nothing in common, so without repetition on the left there is none on the
right. -/
theorem nodup_of_forall₂ {R : α → β → Prop} (hR : ∀ x x' y, R x y → R x' y → x = x')
    {xs : List α} {ys : List β} (h : List.Forall₂ R xs ys) (hxs : xs.Nodup) : ys.Nodup := by
  induction h with
  | nil => exact List.nodup_nil
  | @cons x y xs ys hxy hrest ih =>
    obtain ⟨hx, hxs⟩ := List.nodup_cons.mp hxs
    refine List.nodup_cons.mpr ⟨fun hy => ?_, ih hxs⟩
    obtain ⟨x', hx', hxy'⟩ := exists_of_mem_forall₂ hrest hy
    rw [hR x x' y hxy hxy'] at hx
    exact hx hx'

theorem eq_of_forall₂ {R : α → β → Prop} {xs : List α} {ys zs : List β}
    (h : List.Forall₂ (fun x y => ∀ z, R x z → y = z) xs ys) (h' : List.Forall₂ R xs zs) :
    ys = zs := by
  induction h generalizing zs with
  | nil => exact (List.forall₂_nil_left_iff.mp h').symm
  | cons hx _ ih =>
    obtain ⟨z, rest, hz, hrest, rfl⟩ := List.forall₂_cons_left_iff.mp h'
    rw [hx z hz, ih hrest]

/-- Without repetition there are no more elements than counterparts that tell them apart. -/
theorem length_le_of_counterparts {R : α → β → Prop} (hR : ∀ x x' y, R x y → R x' y → x = x')
    {xs : List α} {ys : List β} (hxs : xs.Nodup) (h : ∀ x ∈ xs, ∃ y ∈ ys, R x y) :
    xs.length ≤ ys.length := by
  have hlisted : ∃ zs, List.Forall₂ R xs zs ∧ ∀ z ∈ zs, z ∈ ys := by
    clear hxs
    induction xs with
    | nil => exact ⟨[], .nil, by simp⟩
    | cons x xs ih =>
      obtain ⟨y, hy, hxy⟩ := h x List.mem_cons_self
      obtain ⟨zs, hzs, hmem⟩ := ih fun x hx => h x (List.mem_cons_of_mem _ hx)
      exact ⟨y :: zs, .cons hxy hzs, List.forall_mem_cons.mpr ⟨hy, hmem⟩⟩
  obtain ⟨zs, hzs, hmem⟩ := hlisted
  rw [hzs.length_eq]
  exact (List.Nodup.subperm (nodup_of_forall₂ hR hzs hxs) hmem).length_le

/-- A successful traversal relates elements and results place by place. -/
theorem mapM_eq_ok_iff {xs : List α} {ys : List β} :
    xs.mapM f = .ok ys ↔ List.Forall₂ (fun x y => f x = .ok y) xs ys := by
  induction xs generalizing ys with
  | nil => cases ys <;> simp [pure, Except.pure]
  | cons x xs ih =>
    rw [List.mapM_cons, List.forall₂_cons_left_iff]
    cases hx : f x with
    | error e => simp [bind, Except.bind]
    | ok y =>
      simp only [bind, Except.bind, Except.ok.injEq, ← ih]
      cases hxs : xs.mapM f with
      | error e => simp
      | ok rest => simp [pure, Except.pure, eq_comm]

theorem mapM_ok_of_forall {xs : List α} (h : ∀ x ∈ xs, ∃ y, f x = .ok y) :
    ∃ ys, xs.mapM f = .ok ys := by
  simp only [mapM_eq_ok_iff]
  induction xs with
  | nil => exact ⟨[], .nil⟩
  | cons x xs ih =>
    obtain ⟨y, hy⟩ := h x (by simp)
    obtain ⟨ys, hys⟩ := ih fun x hx => h x (by simp [hx])
    exact ⟨y :: ys, .cons hy hys⟩

theorem mapM_eq_of_forall₂ {γ : Type} {k : γ → Except ε β} {xs : List α} {ys : List γ}
    (h : List.Forall₂ (fun x y => f x = k y) xs ys) : xs.mapM f = ys.mapM k := by
  induction h with
  | nil => rfl
  | cons hx _ ih => rw [List.mapM_cons, List.mapM_cons, hx, ih]

theorem mapM_congr {xs : List α} (h : ∀ x ∈ xs, f x = g x) : xs.mapM f = xs.mapM g :=
  mapM_eq_of_forall₂ (List.forall₂_same.mpr h)

theorem mapM_ok_mono {xs : List α} {ys : List β} (h : ∀ x ∈ xs, ∀ y, f x = .ok y → g x = .ok y)
    (hf : xs.mapM f = .ok ys) : xs.mapM g = .ok ys := by
  rw [mapM_eq_ok_iff] at hf ⊢
  induction hf with
  | nil => exact .nil
  | cons hx _ ih => exact .cons (h _ (by simp) _ hx) (ih fun x hx => h x (by simp [hx]))

theorem mapM_ok_common_iff {ε' γ : Type} {k : γ → Except ε' β} {xs : List α} {ys : List γ} :
    (∃ zs, xs.mapM f = .ok zs ∧ ys.mapM k = .ok zs) ↔
      List.Forall₂ (fun x y => ∃ z, f x = .ok z ∧ k y = .ok z) xs ys := by
  simp only [mapM_eq_ok_iff]
  constructor
  · rintro ⟨zs, hf, hk⟩
    induction hf generalizing ys with
    | nil => exact List.forall₂_nil_right_iff.mp hk ▸ .nil
    | cons hx _ ih =>
      obtain ⟨y, rest, hy, hrest, rfl⟩ := List.forall₂_cons_right_iff.mp hk
      exact .cons ⟨_, hx, hy⟩ (ih hrest)
  · intro h
    induction h with
    | nil => exact ⟨[], .nil, .nil⟩
    | cons hxy _ ih =>
      obtain ⟨z, hx, hy⟩ := hxy
      obtain ⟨zs, hf, hk⟩ := ih
      exact ⟨z :: zs, .cons hx hf, .cons hy hk⟩

theorem exists_of_mem_mapM {xs : List α} {ys : List β} (h : xs.mapM f = .ok ys) {y : β}
    (hy : y ∈ ys) : ∃ x ∈ xs, f x = .ok y :=
  exists_of_mem_forall₂ (mapM_eq_ok_iff.mp h) hy

theorem eq_of_mapM_ok {xs xs' : List α} {ys : List β}
    (h : ∀ x ∈ xs, ∀ x' ∈ xs', ∀ y, f x = .ok y → f x' = .ok y → x = x')
    (hf : xs.mapM f = .ok ys) (hf' : xs'.mapM f = .ok ys) : xs = xs' := by
  rw [mapM_eq_ok_iff] at hf hf'
  induction hf generalizing xs' with
  | nil => exact (List.forall₂_nil_right_iff.mp hf').symm
  | cons hx _ ih =>
    obtain ⟨x', rest, hx', hrest, rfl⟩ := List.forall₂_cons_right_iff.mp hf'
    rw [h _ (by simp) x' (by simp) _ hx hx',
      ih (fun x hx x' hx' => h x (by simp [hx]) x' (by simp [hx'])) hrest]

end ExternalAtoms
