import ExternalAtoms.Proofs.Bundled.Plugins
import ExternalAtoms.Proofs.Evaluation.Session
import ExternalAtoms.Proofs.Evaluation.Value

/-! # Decided answers of the bundled atoms stay

The number of true atoms that a tally allows lies between the atoms that are true and those that are
not false. Refining an interpretation moves these bounds towards each other, and a verdict that
holds for all numbers between two bounds holds for those between closer ones. So the counting atoms
keep what they have decided, and the other bundled atoms do because they report relations.
-/
namespace ExternalAtoms.Bundled
open SymbolTable Sample

namespace Tally
variable {t t' : Tally}

/-- The second tally allows no number of true atoms that the first one does not allow. -/
structure NarrowedBy (t t' : Tally) : Prop where
  low_le : t.trueAtoms ≤ t'.trueAtoms
  high_le : t'.trueAtoms + t'.unknownAtoms ≤ t.trueAtoms + t.unknownAtoms

theorem someTrue_eq_true_iff : t.someTrue = .true ↔ 0 < t.trueAtoms := by
  unfold someTrue
  split_ifs <;> simp_all

theorem someTrue_eq_false_iff : t.someTrue = .false ↔ t.trueAtoms + t.unknownAtoms = 0 := by
  unfold someTrue
  split_ifs <;> simp <;> omega

theorem within_eq_true_iff {lower upper : Int} : t.within lower upper = .true ↔
    lower ≤ t.trueAtoms ∧ (t.trueAtoms + t.unknownAtoms : Int) ≤ upper := by
  unfold within
  dsimp only
  split_ifs <;> simp_all

theorem within_eq_false_iff {lower upper : Int} : t.within lower upper = .false ↔
    (t.trueAtoms + t.unknownAtoms : Int) < lower ∨ upper < t.trueAtoms := by
  unfold within
  dsimp only
  split_ifs <;> simp <;> omega

namespace NarrowedBy

theorem someTrue (h : t.NarrowedBy t') (hd : t.someTrue ≠ .unknown) :
    t'.someTrue = t.someTrue := by
  have hlow := h.low_le
  have hhigh := h.high_le
  cases hv : t.someTrue with
  | unknown => exact absurd hv hd
  | «true» =>
    rw [someTrue_eq_true_iff] at hv ⊢
    omega
  | «false» =>
    rw [someTrue_eq_false_iff] at hv ⊢
    omega

theorem within (h : t.NarrowedBy t') {lower upper : Int}
    (hd : t.within lower upper ≠ .unknown) : t'.within lower upper = t.within lower upper := by
  have hlow := h.low_le
  have hhigh := h.high_le
  cases hv : t.within lower upper with
  | unknown => exact absurd hv hd
  | «true» =>
    rw [within_eq_true_iff] at hv ⊢
    omega
  | «false» =>
    rw [within_eq_false_iff] at hv ⊢
    omega

end NarrowedBy

end Tally

section Count
variable {final table later : SymbolTable} {i j : Interpretation}

theorem valued_add (entries : List (Symbol × Truth)) :
    valued .true entries + valued .unknown entries =
      entries.countP fun entry => entry.2 ≠ .false := by
  induction entries with
  | nil => rfl
  | cons entry rest ih =>
    obtain ⟨atom, v⟩ := entry
    cases v <;> simp_all [valued] <;> omega

theorem tallyOf_narrowed (hij : i.RefinedBy j) (hl : Grows table final) (hl' : Grows later final)
    (hi : i.Snapshot table) (hj : j.Snapshot later) (predicate : Symbol) :
    (tallyOf (entriesOf table i predicate)).NarrowedBy
      (tallyOf (entriesOf later j predicate)) := by
  rw [tallyOf_eq, tallyOf_eq]
  constructor
  · refine countP_entriesOf_le (P := (· = .true)) hl hl' hi hj fun b v _ hv htrue => ⟨v, ?_, htrue⟩
    obtain rfl := of_decide_eq_true htrue
    exact hij.keeps b _ hv (by decide)
  · dsimp only
    rw [valued_add, valued_add]
    refine countP_entriesOf_le (P := (· ≠ .false)) hl' hl hj hi fun b v _ hv hpossible => ?_
    obtain ⟨v', hv', hpossible'⟩ := hij.was_possible hv (of_decide_eq_true hpossible)
    exact ⟨v', hv', decide_eq_true hpossible'⟩

end Count

section Keeps
variable {a : ExternalAtom} {final : SymbolTable}

theorem valueOf_verdict (hp : a.signature.properties.partialAnswers = true) {i : Interpretation}
    {v : Truth} {t : Tuple} : a.valueOf i (verdict v) t = if t = [] then v else .false := by
  rw [ExternalAtom.valueOf_of_partialAnswers hp, Answer.isUnknown, Answer.isTrue]
  simp only [mem_verdict, mem_unknown_verdict, decide_eq_true_eq]
  by_cases ht : t = []
  · cases v <;> simp [ht, Truth.ofBool]
  · simp [ht, Truth.ofBool]

theorem verdict_keeps (hp : a.signature.properties.partialAnswers = true) {i j : Interpretation}
    {v v' : Truth} (h : v ≠ .unknown → v' = v) {t : Tuple}
    (ht : a.valueOf i (verdict v) t ≠ .unknown) :
    a.valueOf j (verdict v') t = a.valueOf i (verdict v) t := by
  rw [valueOf_verdict hp] at ht ⊢
  rw [valueOf_verdict hp]
  split
  · next hnil => exact h (by rwa [if_pos hnil] at ht)
  · rfl

theorem isEmpty_keeps (hr : a.retrieve = isEmpty)
    (hp : a.signature.properties.partialAnswers = true) : a.Keeps final := by
  intro input i j table later answer answer' hi hj hij t ht
  obtain ⟨p, hp₀, rfl⟩ := isEmpty_answers hi hr
  obtain ⟨p', hp₀', rfl⟩ := isEmpty_answers hj hr
  obtain rfl := Option.some.inj (hp₀.symm.trans hp₀')
  have hnarrowed := tallyOf_narrowed hij hi.grows hj.grows hi.built.snapshot hj.built.snapshot p
  exact verdict_keeps hp hnarrowed.someTrue ht

theorem numberOfBalls_keeps (hr : a.retrieve = numberOfBalls)
    (hp : a.signature.properties.partialAnswers = true) : a.Keeps final := by
  intro input i j table later answer answer' hi hj hij t ht
  obtain ⟨p, x, y, hp₀, hx, hy, rfl⟩ := numberOfBalls_answers hi hr
  obtain ⟨p', x', y', hp₀', hx', hy', rfl⟩ := numberOfBalls_answers hj hr
  obtain rfl := Option.some.inj (hp₀.symm.trans hp₀')
  obtain rfl := Option.some.inj (hx.symm.trans hx')
  obtain rfl := Option.some.inj (hy.symm.trans hy')
  have hnarrowed := tallyOf_narrowed hij hi.grows hj.grows hi.built.snapshot hj.built.snapshot p
  exact verdict_keeps hp hnarrowed.within ht

theorem keeps_of_mem (ha : a ∈ bundledAtoms) : a.Keeps final := by
  simp only [bundledAtoms, stringPlugin, testPlugin, List.mem_append, List.mem_cons,
    List.not_mem_nil, or_false] at ha
  rcases ha with (rfl | rfl | rfl) | rfl | rfl | rfl | rfl | rfl | rfl | rfl | rfl | rfl
  · exact ExternalAtom.Reports.keeps (concat_reports rfl) rfl
  · exact ExternalAtom.Reports.keeps (strlen_reports rfl) rfl
  · exact ExternalAtom.Reports.keeps (substr_reports rfl) rfl
  · exact ExternalAtom.Reports.keeps (joinOperands_reports rfl) rfl
  · exact ExternalAtom.Reports.keeps (setMinus_reports rfl rfl rfl) rfl
  · exact ExternalAtom.Reports.keeps (setMinusTrueAtoms_reports rfl rfl rfl) rfl
  · exact ExternalAtom.Reports.keeps (setMinusLearn_reports rfl rfl rfl) rfl
  · exact ExternalAtom.Reports.keeps (identity_reports rfl rfl) rfl
  · exact ExternalAtom.Reports.keeps (identityOfConstant_reports rfl) rfl
  · exact ExternalAtom.Reports.keeps (smallerThan_reports rfl) rfl
  · exact isEmpty_keeps rfl rfl
  · exact numberOfBalls_keeps rfl rfl

end Keeps

/-- A tuple that is true or false after an evaluation of a bundled atom has the same value after
every evaluation under a refined interpretation, earlier or later in the session: all that is asked
of the two tables is that they lead to a common one. -/
theorem decided_never_retracted {atom : ExternalAtom} (hatom : atom ∈ bundledAtoms)
    {ev ev' : Evaluator} {predicate : String} (hfind : ev.registry.find? predicate = some atom)
    (hfind' : ev'.registry.find? predicate = some atom) {input : List Symbol}
    {i j : Interpretation} {table later final : SymbolTable} (hi : i.BuiltOn table)
    (hj : j.BuiltOn later) (hij : i.RefinedBy j) {e e' : Evaluation}
    (he : (ev.evaluate predicate input i table).result = .ok e)
    (he' : (ev'.evaluate predicate input j later).result = .ok e')
    (hr : Reaches (ev.evaluate predicate input i table).table final)
    (hr' : Reaches (ev'.evaluate predicate input j later).table final) (t : Tuple)
    (ht : e.truthOf t ≠ .unknown) : e'.truthOf t = e.truthOf t := by
  obtain ⟨given, hgiven, hvalue⟩ := Evaluator.evaluate_truthOf hfind hi he hr
  obtain ⟨given', hgiven', hvalue'⟩ := Evaluator.evaluate_truthOf hfind' hj he' hr'
  rw [hvalue] at ht ⊢
  rw [hvalue']
  exact keeps_of_mem hatom hgiven hgiven' hij t ht

/-- Next to the atoms of `threeAtoms`, the integers 1 and 2. -/
def withBounds : SymbolTable := threeAtoms.runAll [.integer 1, .integer 2]

/-- Asks whether one or two of the atoms of `p` are true. -/
def oneOrTwo (truth : Truth) (ev : Evaluator) (table : SymbolTable) : Evaluator.Outcome :=
  ev.evaluate "numberOfBalls" [⟨0⟩, ⟨14⟩, ⟨16⟩] (leftWhen truth) table

def whileOpen : Evaluator.Outcome := oneOrTwo .unknown tester withBounds

/-- While `p(b)` is open the answer is known already, and it stays when `p(b)` is true. -/
theorem decided_never_retracted_oneOrTwo :
    (leftWhen .unknown).isPartial = true ∧
      ∃ e e', whileOpen.result = .ok e ∧ e.truthOf [] = .true ∧
        (oneOrTwo .true whileOpen.evaluator whileOpen.table).result = .ok e' ∧
        e'.truthOf [] = .true := by
  obtain ⟨atom, hatom, hfind⟩ : ∃ atom ∈ bundledAtoms,
      tester.registry.find? "numberOfBalls" = some atom :=
    ⟨⟨⟨"numberOfBalls", [.predicate, .constant, .constant], 0, { partialAnswers := true }⟩,
      numberOfBalls⟩, by simp [bundledAtoms, testPlugin], rfl⟩
  have hbounds : Reaches threeAtoms withBounds := runAll_reaches _ _
  have hopen : Reaches withBounds whileOpen.table := tester.evaluate_reaches _ _ _ _
  obtain ⟨e, he, htrue⟩ : ∃ e, whileOpen.result = .ok e ∧ e.truthOf [] = .true := ⟨_, rfl, rfl⟩
  obtain ⟨e', he'⟩ : ∃ e', (oneOrTwo .true whileOpen.evaluator whileOpen.table).result = .ok e' :=
    ⟨_, rfl⟩
  have hkept := decided_never_retracted hatom hfind
    (show whileOpen.evaluator.registry.find? "numberOfBalls" = some atom from hfind)
    ((leftWhen_builtOn .unknown).extend hbounds)
    ((leftWhen_builtOn .true).extend (hbounds.trans hopen)) (leftWhen_refinedBy .true) he he'
    (Evaluator.evaluate_reaches _ _ _ _ _) .refl [] (by rw [htrue]; decide)
  exact ⟨rfl, e, e', he, htrue, he', hkept.trans htrue⟩

end ExternalAtoms.Bundled
