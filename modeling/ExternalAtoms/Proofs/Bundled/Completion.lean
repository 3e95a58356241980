import ExternalAtoms.Proofs.Bundled.Refinement
import ExternalAtoms.Proofs.Evaluation.Success
import ExternalAtoms.Proofs.Interpretation.Completion
import Mathlib.Data.List.Nodup

/-! # What an unknown verdict leaves open

The numbers that a tally allows are those of the completions of the interpretation. A counting atom
says unknown while some of these numbers meet its question and others do not. Bounds that exclude
each other are the exception: no number lies between them, and yet the verdict is unknown when the
allowed numbers reach up to the lower bound and down to the upper one.
-/
namespace ExternalAtoms
open SymbolTable Sample

namespace Bundled

namespace Tally
variable {t : Tally} {n : Nat}

/-- In the end this may be the number of true atoms. -/
structure Allows (t : Tally) (n : Nat) : Prop where
  low_le : t.trueAtoms ≤ n
  le_high : n ≤ t.trueAtoms + t.unknownAtoms

theorem within_decided (n : Nat) (lower upper : Int) :
    (Tally.mk n 0).within lower upper = .ofBool (decide (lower ≤ n ∧ (n : Int) ≤ upper)) := by
  by_cases hn : lower ≤ n ∧ (n : Int) ≤ upper
  · rw [decide_eq_true hn, within_eq_true_iff.mpr (by simpa using hn)]
    rfl
  · rw [decide_eq_false hn, within_eq_false_iff.mpr (by dsimp only; omega)]
    rfl

theorem someTrue_eq_unknown_iff :
    t.someTrue = .unknown ↔ t.trueAtoms = 0 ∧ 0 < t.unknownAtoms := by
  unfold someTrue
  split_ifs <;> simp <;> omega

theorem within_eq_unknown_iff {lower upper : Int} : t.within lower upper = .unknown ↔
    ¬(lower ≤ t.trueAtoms ∧ (t.trueAtoms + t.unknownAtoms : Int) ≤ upper) ∧
      lower ≤ t.trueAtoms + t.unknownAtoms ∧ (t.trueAtoms : Int) ≤ upper := by
  unfold within
  dsimp only
  split_ifs <;> simp_all

theorem allows_of_someTrue_unknown (h : t.someTrue = .unknown) : t.Allows 0 ∧ t.Allows 1 := by
  obtain ⟨hnone, hopen⟩ := someTrue_eq_unknown_iff.mp h
  exact ⟨⟨by omega, by omega⟩, ⟨by omega, by omega⟩⟩

theorem exists_outside {lower upper : Int} (h : t.within lower upper = .unknown) :
    ∃ n, t.Allows n ∧ ¬(lower ≤ n ∧ (n : Int) ≤ upper) := by
  obtain ⟨hout, -, -⟩ := within_eq_unknown_iff.mp h
  by_cases hlow : lower ≤ t.trueAtoms
  · exact ⟨t.trueAtoms + t.unknownAtoms, ⟨by omega, by omega⟩, by omega⟩
  · exact ⟨t.trueAtoms, ⟨by omega, by omega⟩, by omega⟩

theorem exists_inside {lower upper : Int} (h : t.within lower upper = .unknown)
    (hle : lower ≤ upper) : ∃ n, t.Allows n ∧ lower ≤ n ∧ (n : Int) ≤ upper := by
  obtain ⟨-, hlow, hupper⟩ := within_eq_unknown_iff.mp h
  exact ⟨max t.trueAtoms lower.toNat, ⟨by omega, by omega⟩, by omega, by omega⟩

end Tally

section Count
variable {table later : SymbolTable} {i j : Interpretation}

def settleEntries (becomesTrue : Symbol → Bool) (entries : List (Symbol × Truth)) :
    List (Symbol × Truth) :=
  entries.map fun entry => (entry.1, entry.2.settle (becomesTrue entry.1))

def undecidedAtoms (entries : List (Symbol × Truth)) : List Symbol :=
  (entries.filter fun entry => entry.2 = .unknown).map Prod.fst

theorem valued_settleEntries (becomesTrue : Symbol → Bool) (entries : List (Symbol × Truth)) :
    valued .true (settleEntries becomesTrue entries) =
        valued .true entries + (undecidedAtoms entries).countP becomesTrue ∧
      valued .unknown (settleEntries becomesTrue entries) = 0 := by
  induction entries with
  | nil => exact ⟨rfl, rfl⟩
  | cons entry rest ih =>
    obtain ⟨b, v⟩ := entry
    obtain ⟨htrue, hunknown⟩ := ih
    cases v <;> cases hb : becomesTrue b <;>
      simp_all [settleEntries, undecidedAtoms, valued, Truth.settle, Truth.ofBool] <;> omega

theorem countP_mem_take {α : Type} [DecidableEq α] {l : List α} (hl : l.Nodup) {k : Nat}
    (hk : k ≤ l.length) : l.countP (fun x => decide (x ∈ l.take k)) = k := by
  have hfirst : (l.take k).countP (fun x => decide (x ∈ l.take k)) = k := by
    rw [List.countP_eq_length.mpr fun x hx => decide_eq_true hx, List.length_take_of_le hk]
  have hothers : (l.drop k).countP (fun x => decide (x ∈ l.take k)) = 0 := by
    rw [List.countP_eq_zero]
    intro x hx hmem
    exact List.disjoint_take_drop hl le_rfl (of_decide_eq_true hmem) hx
  calc l.countP (fun x => decide (x ∈ l.take k))
      = (l.take k ++ l.drop k).countP (fun x => decide (x ∈ l.take k)) := by
        rw [List.take_append_drop]
    _ = k := by rw [List.countP_append, hfirst, hothers, Nat.add_zero]

theorem entriesOf_perm_settle (hi : i.Snapshot table) (hj : j.Snapshot table)
    {becomesTrue : Symbol → Bool}
    (h : ∀ s : Symbol, j.truths[s]? = i.truths[s]?.map fun v => v.settle (becomesTrue s))
    (p : Symbol) :
    (entriesOf table j p).Perm (settleEntries becomesTrue (entriesOf table i p)) := by
  have hkeys : (settleEntries becomesTrue (entriesOf table i p)).map Prod.fst =
      (entriesOf table i p).map Prod.fst := by
    rw [settleEntries, List.map_map]
    rfl
  have hnodup : (settleEntries becomesTrue (entriesOf table i p)).Nodup :=
    List.Nodup.of_map Prod.fst (hkeys.symm ▸ nodup_entriesOf hi p)
  refine (List.perm_ext_iff_of_nodup (.of_map Prod.fst (nodup_entriesOf hj p)) hnodup).mpr ?_
  rintro ⟨b, v⟩
  rw [mem_entriesOf hj, h, settleEntries, List.mem_map, Option.map_eq_some_iff]
  constructor
  · rintro ⟨⟨v', hv', rfl⟩, hp⟩
    exact ⟨(b, v'), (mem_entriesOf hi).mpr ⟨hv', hp⟩, rfl⟩
  · rintro ⟨⟨b', v'⟩, hmem, he⟩
    obtain ⟨rfl, rfl⟩ := Prod.mk.inj he
    obtain ⟨hv', hp⟩ := (mem_entriesOf hi).mp hmem
    exact ⟨⟨v', hv', rfl⟩, hp⟩

/-- Every number that a tally allows is the one of some completion. -/
theorem exists_completion_of_allows (hi : i.BuiltOn table) {p : Symbol} {n : Nat}
    (hn : (tallyOf (entriesOf table i p)).Allows n) :
    ∃ j : Interpretation, j.BuiltOn table ∧ i.CompletedBy j ∧
      tallyOf (entriesOf table j p) = ⟨n, 0⟩ := by
  have hs := hi.snapshot
  obtain ⟨hlow, hhigh⟩ := hn
  simp only [tallyOf_eq] at hlow hhigh
  have hnodup : (undecidedAtoms (entriesOf table i p)).Nodup :=
    (nodup_entriesOf hs p).sublist (List.filter_sublist.map _)
  have hlength : (undecidedAtoms (entriesOf table i p)).length =
      valued .unknown (entriesOf table i p) := by
    rw [undecidedAtoms, List.length_map, valued, List.countP_eq_length_filter]
  -- As many of the undecided atoms become true as are missing.
  obtain ⟨j, hj, hcompleted, htruths⟩ := hi.exists_completion fun s => decide
    (s ∈ (undecidedAtoms (entriesOf table i p)).take (n - valued .true (entriesOf table i p)))
  have hperm := entriesOf_perm_settle hs hj.snapshot htruths p
  refine ⟨j, hj, hcompleted, ?_⟩
  rw [tallyOf_eq, valued, valued, hperm.countP_eq, hperm.countP_eq, ← valued, ← valued,
    (valued_settleEntries _ _).1, (valued_settleEntries _ _).2,
    countP_mem_take hnodup (by omega), Nat.add_sub_cancel' hlow]

theorem exists_allows_of_completedBy (hi : i.Snapshot table) (hj : j.Snapshot table)
    (hij : i.CompletedBy j) (p : Symbol) :
    ∃ n, (tallyOf (entriesOf table i p)).Allows n ∧ tallyOf (entriesOf table j p) = ⟨n, 0⟩ := by
  obtain ⟨hlow, hhigh⟩ := tallyOf_narrowed hij.toRefinedBy .refl .refl hi hj p
  have hnone : valued .unknown (entriesOf table j p) = 0 := by
    refine List.countP_eq_zero.mpr fun entry hentry hunknown => ?_
    have hv := ((mem_entriesOf hj).mp hentry).1
    exact hj.isPartial_eq_false_iff.mp hij.complete entry.1 (of_decide_eq_true hunknown ▸ hv)
  simp only [tallyOf_eq, hnone, Nat.add_zero] at hlow hhigh ⊢
  exact ⟨_, ⟨hlow, hhigh⟩, rfl⟩

theorem tallyOf_extend (hi : i.Snapshot table) (hl : Grows table later) (p : Symbol) :
    tallyOf (entriesOf later i p) = tallyOf (entriesOf table i p) :=
  tallyOf_congr .refl hl (hi.extend hl) hi fun _ _ => rfl

end Count

/-- From this table on the atom answers with a verdict on the number of true atoms of a predicate,
and the tables and interpretations to come make no difference to how it judges. -/
structure Judges (a : ExternalAtom) (table : SymbolTable) (input : List Symbol) (p : Symbol)
    (judge : Tally → Truth) : Prop where
  partialAnswers : a.signature.properties.partialAnswers = true
  outputArity : a.signature.outputArity = 0
  accepted : a.signature.checkInput table input = .ok ()
  asked : ∀ {j : Interpretation} {later : SymbolTable}, j.Snapshot later → Grows table later →
    (a.ask ⟨input, j⟩ later).1 = .ok (verdict (judge (tallyOf (entriesOf later j p))))

section Evaluate
variable {ev : Evaluator} {predicate : String} {a : ExternalAtom} {table : SymbolTable}
  {input : List Symbol} {p : Symbol} {judge : Tally → Truth} {i : Interpretation} {e : Evaluation}

theorem nil_of_mem_verdict {v : Truth} {t : Tuple}
    (ht : t ∈ (verdict v).trueTuples ∨ t ∈ (verdict v).unknownTuples) : t = [] := by
  rw [mem_verdict, mem_unknown_verdict] at ht
  exact ht.elim And.right And.right

theorem Judges.evaluate (h : Judges a table input p judge)
    (hatom : ev.registry.find? predicate = some a) (hi : i.BuiltOn table) {later : SymbolTable}
    (hl : Reaches table later) : ∃ e, (ev.evaluate predicate input i later).result = .ok e ∧
      e.truthOf [] = judge (tallyOf (entriesOf table i p)) := by
  have hgrows := Reaches.grows hi.reached.admits hl
  have hlater := hi.extend hl
  have hasked := h.asked hlater.snapshot hgrows
  rw [tallyOf_extend hi.snapshot hgrows] at hasked
  have hpasses : ∃ checked, a.signature.checkAnswer ev.settings
      (verdict (judge (tallyOf (entriesOf table i p)))) = .ok checked := by
    refine Signature.checkAnswer_succeeds_iff.mpr
      ⟨fun t ht => ?_, Or.inr (Or.inl h.partialAnswers)⟩
    rw [nil_of_mem_verdict ht, h.outputArity, List.length_nil]
  obtain ⟨⟨answer, dropped⟩, hchecked⟩ := hpasses
  have hinput := Signature.checkInput_extends hgrows.toExtends h.accepted
  obtain ⟨e, he⟩ := (Evaluator.evaluate_succeeds_iff hatom).mpr
    (ExternalAtom.attempt_succeeds hinput hasked hchecked fun t ht s hs => by
      rw [nil_of_mem_verdict (Signature.kept_of_checkAnswer hchecked ht)] at hs
      exact absurd hs List.not_mem_nil)
  obtain ⟨given, hgiven, hvalue⟩ := Evaluator.evaluate_truthOf hatom hlater he .refl
  obtain rfl := Except.ok.inj (hasked.symm.trans hgiven.answered)
  exact ⟨e, he, by rw [hvalue, valueOf_verdict h.partialAnswers, if_pos rfl]⟩

theorem Judges.truthOf (h : Judges a table input p judge)
    (hatom : ev.registry.find? predicate = some a) (hi : i.BuiltOn table)
    (he : (ev.evaluate predicate input i table).result = .ok e) :
    e.truthOf [] = judge (tallyOf (entriesOf table i p)) := by
  obtain ⟨e', he', hvalue⟩ := h.evaluate hatom hi .refl
  rwa [Except.ok.inj (he.symm.trans he')]

end Evaluate

def emptinessAtom : ExternalAtom :=
  ⟨⟨"isEmpty", [.predicate], 0, { partialAnswers := true }⟩, isEmpty⟩

def numberAtom : ExternalAtom :=
  ⟨⟨"numberOfBalls", [.predicate, .constant, .constant], 0, { partialAnswers := true }⟩,
    numberOfBalls⟩

section Atoms
variable {ev : Evaluator} {table : SymbolTable} {p lower upper : Symbol} {i j : Interpretation}
  {e : Evaluation}

theorem judges_someTrue (hload : ev.registry.Loads testPlugin)
    (he : (ev.evaluate "isEmpty" [p] i table).result = .ok e) :
    Judges emptinessAtom table [p] p Tally.someTrue := by
  have hatom : ev.registry.find? "isEmpty" = some emptinessAtom :=
    hload emptinessAtom (by simp [testPlugin, emptinessAtom])
  obtain ⟨draft, hdraft, -⟩ := Evaluator.exists_draft hatom he
  obtain ⟨given, dropped, hinput, -⟩ := ExternalAtom.attempt_ok hdraft
  refine ⟨rfl, rfl, hinput, fun {j later} hj _ => ?_⟩
  have hasked : emptinessAtom.ask ⟨[p], j⟩ later =
      (.ok (verdict (tallyOf (entriesOf later j p)).someTrue), .ofTable later) :=
    (isEmpty_run_ok hj).mpr ⟨p, rfl, rfl, rfl⟩
  rw [hasked]

theorem judges_within (hload : ev.registry.Loads testPlugin) (hi : i.BuiltOn table)
    (he : (ev.evaluate "numberOfBalls" [p, lower, upper] i table).result = .ok e) :
    ∃ x y, table.integer? lower = some x ∧ table.integer? upper = some y ∧
      Judges numberAtom table [p, lower, upper] p fun t => t.within x.toInt y.toInt := by
  have hatom : ev.registry.find? "numberOfBalls" = some numberAtom :=
    hload numberAtom (by simp [testPlugin, numberAtom])
  obtain ⟨draft, hdraft, -⟩ := Evaluator.exists_draft hatom he
  obtain ⟨given, dropped, hinput, hgiven, -⟩ := ExternalAtom.attempt_ok hdraft
  obtain ⟨_, x, y, -, hx, hy, -⟩ :=
    (numberOfBalls_run_ok hi.snapshot).mp (Prod.ext hgiven rfl)
  refine ⟨x, y, hx, hy, rfl, rfl, hinput, fun {j later} hj hl => ?_⟩
  have hasked : numberAtom.ask ⟨[p, lower, upper], j⟩ later = (.ok (verdict
      ((tallyOf (entriesOf later j p)).within x.toInt y.toInt)), .ofTable later) :=
    (numberOfBalls_run_ok hj).mpr
      ⟨p, x, y, rfl, hl.toExtends.integer? hx, hl.toExtends.integer? hy, rfl, rfl⟩
  rw [hasked]

end Atoms

/-- The completions of an interpretation that are built on a table. -/
def completions (i : Interpretation) (table : SymbolTable) : Set Interpretation :=
  {j | j.BuiltOn table ∧ i.CompletedBy j}

/-- Wherever the bundled atom is asked under the interpretation, from this table on, the evaluation
succeeds and the empty tuple has this value. -/
def Settles (predicate : String) (input : List Symbol) (table : SymbolTable) (j : Interpretation)
    (v : Truth) : Prop :=
  ∀ (ev : Evaluator) (later : SymbolTable), ev.registry.Loads testPlugin → Reaches table later →
    ∃ e, (ev.evaluate predicate input j later).result = .ok e ∧ e.truthOf [] = v

section Open
variable {a : ExternalAtom} {table : SymbolTable} {input : List Symbol} {p : Symbol}
  {judge : Tally → Truth} {i j : Interpretation}

theorem Judges.settles (h : Judges a table input p judge) (ha : a ∈ testPlugin.atoms)
    (hj : j.BuiltOn table) :
    Settles a.predicate input table j (judge (tallyOf (entriesOf table j p))) :=
  fun _ _ hload hl => h.evaluate (hload a ha) hj hl

theorem Judges.exists_settles (h : Judges a table input p judge) (ha : a ∈ testPlugin.atoms)
    (hi : i.BuiltOn table) {n : Nat} (hn : (tallyOf (entriesOf table i p)).Allows n) {v : Truth}
    (hv : judge ⟨n, 0⟩ = v) : ∃ j ∈ completions i table, Settles a.predicate input table j v := by
  obtain ⟨j, hj, hcompleted, htally⟩ := exists_completion_of_allows hi hn
  have hsettles := h.settles ha hj
  rw [htally, hv] at hsettles
  exact ⟨j, ⟨hj, hcompleted⟩, hsettles⟩

theorem Judges.settles_of_crossed {lower upper : Int}
    (h : Judges a table input p fun t => t.within lower upper) (ha : a ∈ testPlugin.atoms)
    (hcrossed : upper < lower) (hi : i.BuiltOn table) (hj : j ∈ completions i table) :
    Settles a.predicate input table j .false := by
  obtain ⟨n, -, htally⟩ := exists_allows_of_completedBy hi.snapshot hj.1.snapshot hj.2 p
  have hsettles := h.settles ha hj.1
  rwa [htally, Tally.within_decided, decide_eq_false (by omega)] at hsettles

end Open

/-- While the empty tuple is unknown, some completion of the interpretation makes it false, and some
completion makes it true unless the bounds on the number exclude each other. With such bounds it may
be unknown too, but then every completion makes it false. -/
theorem unknown_verdict_open {ev : Evaluator} {i : Interpretation} {table : SymbolTable}
    (hload : ev.registry.Loads testPlugin) (hi : i.BuiltOn table) :
    (∀ p e, (ev.evaluate "isEmpty" [p] i table).result = .ok e → e.truthOf [] = .unknown →
      (∃ j ∈ completions i table, Settles "isEmpty" [p] table j .true) ∧
        ∃ j ∈ completions i table, Settles "isEmpty" [p] table j .false) ∧
    ∀ p lower upper e, (ev.evaluate "numberOfBalls" [p, lower, upper] i table).result = .ok e →
      e.truthOf [] = .unknown → ∃ x y, table.integer? lower = some x ∧
        table.integer? upper = some y ∧
        (∃ j ∈ completions i table, Settles "numberOfBalls" [p, lower, upper] table j .false) ∧
        (x ≤ y → ∃ j ∈ completions i table,
          Settles "numberOfBalls" [p, lower, upper] table j .true) ∧
        (y < x → ∀ j ∈ completions i table,
          Settles "numberOfBalls" [p, lower, upper] table j .false) := by
  constructor
  · intro p e he hunknown
    have hatom : emptinessAtom ∈ testPlugin.atoms := by simp [testPlugin, emptinessAtom]
    have hjudges := judges_someTrue hload he
    rw [hjudges.truthOf (hload emptinessAtom hatom) hi he] at hunknown
    obtain ⟨hzero, hone⟩ := Tally.allows_of_someTrue_unknown hunknown
    exact ⟨hjudges.exists_settles hatom hi hone rfl, hjudges.exists_settles hatom hi hzero rfl⟩
  · intro p lower upper e he hunknown
    have hatom : numberAtom ∈ testPlugin.atoms := by simp [testPlugin, numberAtom]
    obtain ⟨x, y, hx, hy, hjudges⟩ := judges_within hload hi he
    rw [hjudges.truthOf (hload numberAtom hatom) hi he] at hunknown
    refine ⟨x, y, hx, hy, ?_, fun hle => ?_, fun hlt j hj => ?_⟩
    · obtain ⟨n, hn, hout⟩ := Tally.exists_outside hunknown
      refine hjudges.exists_settles hatom hi hn ?_
      rw [Tally.within_decided, decide_eq_false hout]
      rfl
    · obtain ⟨n, hn, hinside⟩ := Tally.exists_inside hunknown (Int64.le_iff_toInt_le.mp hle)
      refine hjudges.exists_settles hatom hi hn ?_
      rw [Tally.within_decided, decide_eq_true hinside]
      rfl
    · exact hjudges.settles_of_crossed hatom (Int64.lt_iff_toInt_lt.mp hlt) hi hj

theorem leftWhen_builtOn_withBounds (truth : Truth) : (leftWhen truth).BuiltOn withBounds :=
  (leftWhen_builtOn truth).extend (runAll_reaches _ _)

/-- Whether two atoms of `p` are true is open while `p(b)` is, and some completion makes it so. -/
theorem unknown_verdict_open_bothTrue : tester.registry.Loads testPlugin ∧
    ∃ e, (tester.evaluate "numberOfBalls" [⟨0⟩, ⟨16⟩, ⟨16⟩] (leftWhen .unknown) withBounds).result =
      .ok e ∧ e.truthOf [] = .unknown ∧ ∃ j ∈ completions (leftWhen .unknown) withBounds,
        Settles "numberOfBalls" [⟨0⟩, ⟨16⟩, ⟨16⟩] withBounds j .true := by
  have hi := leftWhen_builtOn_withBounds .unknown
  obtain ⟨e, he, hunknown⟩ : ∃ e, (tester.evaluate "numberOfBalls" [⟨0⟩, ⟨16⟩, ⟨16⟩]
      (leftWhen .unknown) withBounds).result = .ok e ∧ e.truthOf [] = .unknown := ⟨_, rfl, rfl⟩
  obtain ⟨x, y, hx, hy, -, hopen, -⟩ := (unknown_verdict_open tester_loads hi).2 _ _ _ e he hunknown
  obtain rfl := Option.some.inj (hx.symm.trans hy)
  exact ⟨tester_loads, e, he, hunknown, hopen (Int64.le_iff_toInt_le.mpr le_rfl)⟩

/-- Whether the number of true atoms of `p` is at least two and at most one is unknown while `p(b)`
is open, although no completion makes it so. -/
theorem crossed_bounds_unknown :
    ∃ e, (tester.evaluate "numberOfBalls" [⟨0⟩, ⟨16⟩, ⟨14⟩] (leftWhen .unknown) withBounds).result =
      .ok e ∧ e.truthOf [] = .unknown ∧ ¬∃ j ∈ completions (leftWhen .unknown) withBounds,
        ∃ e', (tester.evaluate "numberOfBalls" [⟨0⟩, ⟨16⟩, ⟨14⟩] j withBounds).result = .ok e' ∧
          e'.truthOf [] = .true := by
  have hi := leftWhen_builtOn_withBounds .unknown
  obtain ⟨e, he, hunknown⟩ : ∃ e, (tester.evaluate "numberOfBalls" [⟨0⟩, ⟨16⟩, ⟨14⟩]
      (leftWhen .unknown) withBounds).result = .ok e ∧ e.truthOf [] = .unknown := ⟨_, rfl, rfl⟩
  refine ⟨e, he, hunknown, ?_⟩
  rintro ⟨j, hj, e', he', htrue⟩
  have hatom : numberAtom ∈ testPlugin.atoms := by simp [testPlugin, numberAtom]
  obtain ⟨x, y, hx, hy, hjudges⟩ := judges_within tester_loads hi he
  obtain rfl : (2 : Int64) = x := Option.some.inj hx
  obtain rfl : (1 : Int64) = y := Option.some.inj hy
  obtain ⟨e'', he'', hfalse⟩ :=
    hjudges.settles_of_crossed hatom (by decide) hi hj tester withBounds tester_loads .refl
  obtain rfl := Except.ok.inj (he'.symm.trans he'')
  rw [htrue] at hfalse
  cases hfalse

end Bundled

end ExternalAtoms
