import ExternalAtoms.Bundled.Differences
import ExternalAtoms.Proofs.Bundled.Operand

/-! # What the atoms that read extensions report

The three forms of the difference report the same relation, and the identity reports the extension
itself. Reading extensions or scanning the true atoms stores nothing.
-/
namespace ExternalAtoms

theorem Signature.extensionAt_eq {s : Signature} {q : Query} {index : Nat} {p : Symbol}
    (hk : s.kindAt index = some .predicate) (hp : q.arg? index = some p) :
    s.extensionAt q index = q.extension p := by
  rw [extensionAt, if_pos hk, hp]
  rfl

namespace Bundled
open SymbolTable
variable {a : ExternalAtom} {final : SymbolTable}

theorem inputArgument_ok {q : Query} {index : Nat} {predicate : String} {call : Invocation}
    {w w' : Workspace} {s : Symbol} :
    (inputArgument q index predicate).run call w = (.ok s, w') ↔
      q.arg? index = some s ∧ w = w' := argument_ok

theorem mem_difference {minuend subtrahend : TupleSet} {t : Tuple} :
    t ∈ difference minuend subtrahend ↔ t ∈ minuend ∧ t ∉ subtrahend := by
  simp [difference]

/-- The relation of all three differences. -/
def differenceOf (_ : List Symbol) (E : Nat → TupleSet) : Set Tuple := {t | t ∈ E 0 ∧ t ∉ E 1}

theorem differenceOf_respects (input : List Symbol) {p : Properties}
    (hm : ∀ index ∈ p.monotonic, index = 0) (ha : ∀ index ∈ p.antimonotonic, index = 1) :
    p.Respects (differenceOf input) := by
  constructor
  · intro E index X hp hX t ht
    obtain rfl := hm index (List.contains_iff_mem.mp hp)
    constructor
    · rw [Function.update_self]
      exact hX t ht.1
    · rw [Function.update_of_ne (by decide)]
      exact ht.2
  · intro E index X hp hX t ht
    obtain rfl := ha index (List.contains_iff_mem.mp hp)
    obtain ⟨h0, h1⟩ := ht
    rw [Function.update_of_ne (by decide)] at h0
    rw [Function.update_self] at h1
    exact ⟨h0, fun h => h1 (hX t h)⟩

theorem mem_differenceOf {q : Query} {p s : Symbol}
    (h0 : a.signature.kindAt 0 = some .predicate) (h1 : a.signature.kindAt 1 = some .predicate)
    (hp : q.arg? 0 = some p) (hs : q.arg? 1 = some s) {t : Tuple} :
    t ∈ differenceOf q.input (a.signature.extensionAt q) ↔
      t ∈ q.extension p ∧ t ∉ q.extension s := by
  rw [← Signature.extensionAt_eq h0 hp, ← Signature.extensionAt_eq h1 hs]
  rfl

theorem setMinus_reports (hr : a.retrieve = setMinus)
    (h0 : a.signature.kindAt 0 = some .predicate) (h1 : a.signature.kindAt 1 = some .predicate) :
    a.Reports final differenceOf := by
  intro q table answer hanswer t
  obtain ⟨w, hw, -⟩ := hanswer.exists_run
  rw [hr, setMinus] at hw
  simp only [Retrieval.run_bind_ok, Retrieval.run_pure_ok, inputArgument_ok] at hw
  obtain ⟨p, _, ⟨hp, rfl⟩, s, _, ⟨hs, rfl⟩, rfl, rfl⟩ := hw
  rw [Answer.mem_ofTuples, mem_difference, mem_differenceOf h0 h1 hp hs]

/-- What one atom of the scan adds to the tuples found for a head. -/
theorem mem_gathered {table : SymbolTable} {b p head : Symbol} (hp : table.HeadOf b p)
    {rest : List Symbol} {found : TupleSet}
    (hfound : ∀ x, x ∈ found ↔ ∃ b ∈ rest, table.HeadOf b head ∧ table.arguments b = x)
    (x : Tuple) :
    x ∈ (if some p = some head then found.insert (table.arguments b) else found) ↔
      ∃ c ∈ b :: rest, table.HeadOf c head ∧ table.arguments c = x := by
  have hhead : table.HeadOf b head ↔ some p = some head := by rw [hp.iff_head, hp.fst]
  rw [List.exists_mem_cons_iff, hhead, ← hfound]
  split
  · next he =>
    rw [Std.ExtTreeSet.mem_insert, Std.LawfulEqCmp.compare_eq_iff_eq]
    exact or_congr_left (and_iff_right he).symm
  · next he => exact (or_iff_right fun h => he h.1).symm

/-- The scan finds the arguments of the atoms with either head and stores nothing. -/
theorem gather_ok {call : Invocation} {w : Workspace} (first second : Symbol)
    {atoms : List Symbol} (hatoms : ∀ b ∈ atoms, ∃ p, w.table.HeadOf b p) :
    ∃ found, (gather first second atoms).run call w = (.ok found, w) ∧
      (∀ x, x ∈ found.1 ↔ ∃ b ∈ atoms, w.table.HeadOf b first ∧ w.table.arguments b = x) ∧
      ∀ x, x ∈ found.2 ↔ ∃ b ∈ atoms, w.table.HeadOf b second ∧ w.table.arguments b = x := by
  induction atoms with
  | nil => exact ⟨(∅, ∅), rfl, by simp, by simp⟩
  | cons b rest ih =>
    obtain ⟨p, hp⟩ := hatoms b (by simp)
    obtain ⟨found, hfound, hfirst, hsecond⟩ := ih fun b hb => hatoms b (by simp [hb])
    refine ⟨(if some p = some first then found.1.insert (w.table.arguments b) else found.1,
      if some p = some second then found.2.insert (w.table.arguments b) else found.2),
      ?_, mem_gathered hp hfirst, mem_gathered hp hsecond⟩
    simp only [gather, Retrieval.run_bind, Retrieval.run_head, Retrieval.run_read,
      Retrieval.run_pure, show w.table.head b = (some p, w.table) from hp, hfound]

theorem setMinusTrueAtoms_reports (hr : a.retrieve = setMinusTrueAtoms)
    (h0 : a.signature.kindAt 0 = some .predicate) (h1 : a.signature.kindAt 1 = some .predicate) :
    a.Reports final differenceOf := by
  intro q table answer hanswer t
  obtain ⟨w, hw, -⟩ := hanswer.exists_run
  have hi := hanswer.built.snapshot
  have hheads : ∀ b ∈ q.interpretation.trueAtoms, ∃ p, table.HeadOf b p := by
    intro b hb
    exact (hi.headed b _ ((Interpretation.mem_trueAtoms hi).mp hb)).2
  rw [hr, setMinusTrueAtoms] at hw
  simp only [Retrieval.run_bind_ok, Retrieval.run_pure_ok, inputArgument_ok] at hw
  obtain ⟨p, _, ⟨hp, rfl⟩, s, _, ⟨hs, rfl⟩, found, _, hfound, rfl, rfl⟩ := hw
  obtain ⟨found', hrun, hfirst, hsecond⟩ :=
    @gather_ok ⟨a.signature, q.input⟩ (.ofTable table) p s _ hheads
  obtain ⟨he, -⟩ := Prod.mk.inj (hfound.symm.trans hrun)
  obtain rfl := Except.ok.inj he
  have hextension : ∀ (predicate : Symbol) (x : Tuple),
      (∃ b ∈ q.interpretation.trueAtoms, table.HeadOf b predicate ∧ table.arguments b = x) ↔
        x ∈ q.extension predicate := by
    intro predicate x
    simp only [Interpretation.mem_trueAtoms hi]
    exact (hi.mem_extension predicate x).symm
  have hfirst' : t ∈ found.1 ↔ t ∈ q.extension p := (hfirst t).trans (hextension p t)
  have hsecond' : t ∈ found.2 ↔ t ∈ q.extension s := (hsecond t).trans (hextension s t)
  rw [Answer.mem_ofTuples, mem_difference, mem_differenceOf h0 h1 hp hs, hfirst', hsecond']

def extensionOf (_ : List Symbol) (E : Nat → TupleSet) : Set Tuple := {t | t ∈ E 0}

theorem extensionOf_respects (input : List Symbol) {p : Properties}
    (hm : ∀ index ∈ p.monotonic, index = 0) (ha : p.antimonotonic = []) :
    p.Respects (extensionOf input) := by
  constructor
  · intro E index X hp hX t ht
    obtain rfl := hm index (List.contains_iff_mem.mp hp)
    change t ∈ Function.update E 0 X 0
    rw [Function.update_self]
    exact hX t ht
  · intro E index X hp
    simp [Properties.isAntimonotonic, ha] at hp

theorem identity_reports (hr : a.retrieve = identity)
    (h0 : a.signature.kindAt 0 = some .predicate) : a.Reports final extensionOf := by
  intro q table answer hanswer t
  obtain ⟨w, hw, -⟩ := hanswer.exists_run
  rw [hr, identity] at hw
  simp only [Retrieval.run_bind_ok, inputArgument_ok] at hw
  obtain ⟨p, _, ⟨hp, rfl⟩, hw⟩ := hw
  split at hw
  · obtain ⟨rfl, -⟩ := (Retrieval.run_pure_ok _).mp hw
    rw [Answer.mem_ofTuples, Std.ExtTreeSet.mem_toList, ← Signature.extensionAt_eq h0 hp]
    rfl
  · simp at hw

end Bundled

end ExternalAtoms
