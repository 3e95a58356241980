import ExternalAtoms.Bundled.Counting
import ExternalAtoms.Proofs.Bundled.Differences

/-! # What the atoms that compare and count report

The identity on constants and the comparison depend on their arguments alone. The counting atoms
look at the value of every atom of their predicate, so two interpretations that agree on these
atoms, in whatever order they list them, get the same answer.
-/
namespace ExternalAtoms.Bundled
open SymbolTable
variable {a : ExternalAtom} {final : SymbolTable}

theorem mem_verdict {truth : Truth} {t : Tuple} :
    t ∈ (verdict truth).trueTuples ↔ truth = .true ∧ t = [] := by
  cases truth with
  | «true» => simp [verdict, Answer.mem_ofTuples]
  | «false» => simp [verdict, Answer.empty]
  | unknown => simp [verdict, Answer.undecided, Answer.suspect, Answer.empty]

theorem mem_unknown_verdict {truth : Truth} {t : Tuple} :
    t ∈ (verdict truth).unknownTuples ↔ truth = .unknown ∧ t = [] := by
  cases truth with
  | «true» => simp [verdict, Answer.ofTuples, Answer.settle, Answer.empty]
  | «false» => simp [verdict, Answer.empty]
  | unknown => simp [verdict, Answer.undecided, Answer.suspect, Answer.empty]

theorem identityOfConstant_reports (hr : a.retrieve = identityOfConstant) :
    a.Reports final fun input _ => {t | ∃ s, input[0]? = some s ∧ t = [s]} := by
  intro q table answer hanswer t
  obtain ⟨w, hw, -⟩ := hanswer.exists_run
  rw [hr, identityOfConstant] at hw
  simp only [Retrieval.run_bind_ok, Retrieval.run_pure_ok, inputArgument_ok] at hw
  obtain ⟨s, _, ⟨hs, rfl⟩, rfl, rfl⟩ := hw
  rw [Answer.mem_ofTuples, List.mem_singleton, Set.mem_ofPred_eq]
  constructor
  · exact fun ht => ⟨s, hs, ht⟩
  · rintro ⟨s', hs', rfl⟩
    rw [Option.some.inj (hs.symm.trans hs')]

theorem smallerThan_reports (hr : a.retrieve = smallerThan) :
    a.Reports final fun input _ => {t | ∃ x y, input[0]?.bind final.integer? = some x ∧
      input[1]?.bind final.integer? = some y ∧ x < y ∧ t = []} := by
  intro q table answer hanswer t
  obtain ⟨w, hw, -⟩ := hanswer.exists_run
  have hlater := hanswer.grows.toExtends
  rw [hr, smallerThan] at hw
  simp only [Retrieval.run_bind_ok, Retrieval.run_pure_ok, integerArgument_ok] at hw
  obtain ⟨x, _, ⟨hx, rfl⟩, y, _, ⟨hy, rfl⟩, rfl, rfl⟩ := hw
  have hx' := argument_integer_extends hlater hx
  have hy' := argument_integer_extends hlater hy
  have htrue : Truth.ofBool (decide (x < y)) = .true ↔ x < y := by
    by_cases hlt : x < y <;> simp [hlt, Truth.ofBool]
  rw [mem_verdict, htrue, Set.mem_ofPred_eq]
  constructor
  · rintro ⟨hlt, rfl⟩
    exact ⟨x, y, hx', hy', hlt, rfl⟩
  · rintro ⟨x', y', hx'', hy'', hlt, rfl⟩
    obtain rfl := Option.some.inj (hx'.symm.trans hx'')
    obtain rfl := Option.some.inj (hy'.symm.trans hy'')
    exact ⟨hlt, rfl⟩

def tallyOf (entries : List (Symbol × Truth)) : Tally :=
  entries.foldl (fun tally entry => tally.add entry.2) {}

/-- How many entries have a value. -/
def valued (v : Truth) (entries : List (Symbol × Truth)) : Nat :=
  entries.countP fun entry => entry.2 = v

theorem foldl_add (entries : List (Symbol × Truth)) (tally : Tally) :
    entries.foldl (fun tally entry => tally.add entry.2) tally =
      ⟨tally.trueAtoms + valued .true entries, tally.unknownAtoms + valued .unknown entries⟩ := by
  induction entries generalizing tally with
  | nil => rfl
  | cons entry rest ih =>
    obtain ⟨atom, v⟩ := entry
    rw [List.foldl_cons, ih]
    cases v <;> simp [Tally.add, valued] <;> omega

theorem tallyOf_eq (entries : List (Symbol × Truth)) :
    tallyOf entries = ⟨valued .true entries, valued .unknown entries⟩ := by
  rw [tallyOf, foldl_add, Nat.zero_add, Nat.zero_add]

theorem countAtoms_ok {call : Invocation} {w : Workspace} (predicate : Symbol)
    {entries : List (Symbol × Truth)} (hentries : ∀ entry ∈ entries, ∃ p, w.table.HeadOf entry.1 p)
    (tally : Tally) :
    (countAtoms predicate tally entries).run call w =
      (.ok ((entries.filter fun entry => (w.table.head entry.1).1 = some predicate).foldl
        (fun tally entry => tally.add entry.2) tally), w) := by
  induction entries generalizing tally with
  | nil => rfl
  | cons entry rest ih =>
    obtain ⟨p, hp⟩ := hentries entry (by simp)
    rw [countAtoms, Retrieval.run_bind, Retrieval.run_head,
      show w.table.head entry.1 = (some p, w.table) from hp]
    dsimp only
    rw [ih fun entry he => hentries entry (by simp [he])]
    by_cases he : some p = some predicate
    · simp [he, hp.fst]
    · simp [he, hp.fst]

/-- The atoms of a predicate with their values, as a table tells them. -/
def entriesOf (table : SymbolTable) (i : Interpretation) (predicate : Symbol) :
    List (Symbol × Truth) :=
  i.atoms.toList.filter fun entry => (table.head entry.1).1 = some predicate

theorem countInputs_ok {q : Query} {call : Invocation} {w : Workspace}
    (hi : q.interpretation.Snapshot w.table) (predicate : Symbol) :
    (countInputs q predicate).run call w =
      (.ok (tallyOf (entriesOf w.table q.interpretation predicate)), w) := by
  refine countAtoms_ok predicate (fun entry he => ?_) {}
  exact (hi.headed entry.1 entry.2 ((hi.mem_atoms _ _).mp he)).2

theorem mem_entriesOf {table : SymbolTable} {i : Interpretation} (hi : i.Snapshot table)
    {predicate b : Symbol} {v : Truth} :
    (b, v) ∈ entriesOf table i predicate ↔ i.truths[b]? = some v ∧ table.HeadOf b predicate := by
  rw [entriesOf, List.mem_filter, hi.mem_atoms, decide_eq_true_eq]
  refine and_congr_right fun hv => ?_
  obtain ⟨-, p, hp⟩ := hi.headed b v hv
  exact hp.iff_head.symm

theorem nodup_entriesOf {table : SymbolTable} {i : Interpretation} (hi : i.Snapshot table)
    (predicate : Symbol) : ((entriesOf table i predicate).map Prod.fst).Nodup :=
  hi.nodup.sublist (List.filter_sublist.map Prod.fst)

/-- If all atoms of one predicate with values of one kind have counterparts among those of another,
there are no fewer of these. -/
theorem countP_entriesOf_le_of_counterparts {R : Symbol → Symbol → Prop}
    (hR : ∀ b c b', R b b' → R c b' → b = c) {table later : SymbolTable} {i j : Interpretation}
    (hi : i.Snapshot table) (hj : j.Snapshot later) {p p' : Symbol} {P : Truth → Bool}
    (h : ∀ b v, i.truths[b]? = some v → table.HeadOf b p → P v = true →
      ∃ b' v', j.truths[b']? = some v' ∧ later.HeadOf b' p' ∧ P v' = true ∧ R b b') :
    (entriesOf table i p).countP (fun entry => P entry.2) ≤
      (entriesOf later j p').countP fun entry => P entry.2 := by
  rw [List.countP_eq_length_filter, List.countP_eq_length_filter, ← List.length_map Prod.fst,
    ← List.length_map Prod.fst]
  refine length_le_of_counterparts hR ?_ fun b hb => ?_
  · exact (nodup_entriesOf hi p).sublist (List.filter_sublist.map Prod.fst)
  · obtain ⟨⟨b, v⟩, hentry, rfl⟩ := List.mem_map.mp hb
    obtain ⟨hmem, hP⟩ := List.mem_filter.mp hentry
    obtain ⟨hv, hhead⟩ := (mem_entriesOf hi).mp hmem
    obtain ⟨b', v', hv', hhead', hP', hbb'⟩ := h b v hv hhead hP
    exact ⟨b', List.mem_map.mpr
      ⟨(b', v'), List.mem_filter.mpr ⟨(mem_entriesOf hj).mpr ⟨hv', hhead'⟩, hP'⟩, rfl⟩, hbb'⟩

section Compare
variable {table later : SymbolTable} {i j : Interpretation} {predicate : Symbol}
  (hl : Grows table final) (hl' : Grows later final) (hi : i.Snapshot table) (hj : j.Snapshot later)
include hl hl' hi hj

theorem countP_entriesOf_le {P : Truth → Bool}
    (h : ∀ b v, final.HeadOf b predicate → i.truths[b]? = some v → P v = true →
      ∃ v', j.truths[b]? = some v' ∧ P v' = true) :
    (entriesOf table i predicate).countP (fun entry => P entry.2) ≤
      (entriesOf later j predicate).countP fun entry => P entry.2 := by
  refine countP_entriesOf_le_of_counterparts (R := Eq) (fun _ _ _ hb hc => hb.trans hc.symm) hi hj
    fun b v hv hhead hP => ?_
  obtain ⟨v', hv', hP'⟩ := h b v (hhead.extend hl) hv hP
  exact ⟨b, v', hv', hj.headOf_of_grows hl' hv' (hhead.extend hl), hP', rfl⟩

theorem tallyOf_congr (hagree : ∀ b, final.HeadOf b predicate → i.truths[b]? = j.truths[b]?) :
    tallyOf (entriesOf table i predicate) = tallyOf (entriesOf later j predicate) := by
  have hvalued : ∀ v, valued v (entriesOf table i predicate) =
      valued v (entriesOf later j predicate) := by
    intro v
    apply Nat.le_antisymm
    · refine countP_entriesOf_le (P := (· = v)) hl hl' hi hj fun b v' hb hv hP => ⟨v', ?_, hP⟩
      rwa [← hagree b hb]
    · refine countP_entriesOf_le (P := (· = v)) hl' hl hj hi fun b v' hb hv hP => ⟨v', ?_, hP⟩
      rwa [hagree b hb]
  rw [tallyOf_eq, tallyOf_eq, hvalued, hvalued]

end Compare

section Run
variable {q : Query} {call : Invocation} {w w' : Workspace} {answer : Answer}
  (hi : q.interpretation.Snapshot w.table)
include hi

theorem countInputs_run_ok {p : Symbol} {tally : Tally} :
    (countInputs q p).run call w = (.ok tally, w') ↔
      tallyOf (entriesOf w.table q.interpretation p) = tally ∧ w = w' := by
  rw [countInputs_ok hi, Prod.mk.injEq, Except.ok.injEq]

theorem isEmpty_run_ok : (isEmpty q).run call w = (.ok answer, w') ↔
    ∃ p, q.arg? 0 = some p ∧
      answer = verdict (tallyOf (entriesOf w.table q.interpretation p)).someTrue ∧ w = w' := by
  simp only [isEmpty, Retrieval.run_bind_ok, Retrieval.run_pure_ok, inputArgument_ok]
  constructor
  · rintro ⟨p, _, ⟨hp, rfl⟩, tally, _, htally, rfl, rfl⟩
    obtain ⟨rfl, rfl⟩ := (countInputs_run_ok hi).mp htally
    exact ⟨p, hp, rfl, rfl⟩
  · rintro ⟨p, hp, rfl, rfl⟩
    exact ⟨p, w, ⟨hp, rfl⟩, _, w, (countInputs_run_ok hi).mpr ⟨rfl, rfl⟩, rfl, rfl⟩

theorem numberOfBalls_run_ok : (numberOfBalls q).run call w = (.ok answer, w') ↔
    ∃ p lower upper, q.arg? 0 = some p ∧ (q.arg? 1).bind w.table.integer? = some lower ∧
      (q.arg? 2).bind w.table.integer? = some upper ∧ answer = verdict
        ((tallyOf (entriesOf w.table q.interpretation p)).within lower.toInt upper.toInt) ∧
      w = w' := by
  simp only [numberOfBalls, Retrieval.run_bind_ok, Retrieval.run_pure_ok, inputArgument_ok,
    integerArgument_ok]
  constructor
  · rintro ⟨p, _, ⟨hp, rfl⟩, x, _, ⟨hx, rfl⟩, y, _, ⟨hy, rfl⟩, tally, _, htally, rfl, rfl⟩
    obtain ⟨rfl, rfl⟩ := (countInputs_run_ok hi).mp htally
    exact ⟨p, x, y, hp, hx, hy, rfl, rfl⟩
  · rintro ⟨p, x, y, hp, hx, hy, rfl, rfl⟩
    exact ⟨p, w, ⟨hp, rfl⟩, x, w, ⟨hx, rfl⟩, y, w, ⟨hy, rfl⟩, _, w,
      (countInputs_run_ok hi).mpr ⟨rfl, rfl⟩, rfl, rfl⟩

end Run

section Answers
variable {input : List Symbol} {i : Interpretation} {table : SymbolTable} {answer : Answer}
  (h : a.Answers final ⟨input, i⟩ table answer)
include h

theorem isEmpty_answers (hr : a.retrieve = isEmpty) :
    ∃ p, input[0]? = some p ∧ answer = verdict (tallyOf (entriesOf table i p)).someTrue := by
  obtain ⟨w, hrun, -⟩ := h.exists_run
  rw [hr] at hrun
  obtain ⟨p, hp, rfl, -⟩ := (isEmpty_run_ok h.built.snapshot).mp hrun
  exact ⟨p, hp, rfl⟩

theorem numberOfBalls_answers (hr : a.retrieve = numberOfBalls) :
    ∃ p lower upper, input[0]? = some p ∧ input[1]?.bind final.integer? = some lower ∧
      input[2]?.bind final.integer? = some upper ∧
      answer = verdict ((tallyOf (entriesOf table i p)).within lower.toInt upper.toInt) := by
  obtain ⟨w, hrun, -⟩ := h.exists_run
  have hlater := h.grows.toExtends
  rw [hr] at hrun
  obtain ⟨p, x, y, hp, hx, hy, rfl, -⟩ := (numberOfBalls_run_ok h.built.snapshot).mp hrun
  exact ⟨p, x, y, hp, argument_integer_extends hlater hx, argument_integer_extends hlater hy, rfl⟩

end Answers

section Counting
variable (h0 : a.signature.kindAt 0 = some .predicate)
  (hm : a.signature.properties.isMonotonic 0 = false)
  (hd : a.signature.properties.isAntimonotonic 0 = false) (hb : final.size ≤ 2 ^ 31)
  {input : List Symbol} {i j : Interpretation} {table later : SymbolTable} {answer answer' : Answer}
  (hi : a.Answers final ⟨input, i⟩ table answer) (hj : a.Answers final ⟨input, j⟩ later answer')
  (hjust : Invocation.Justifies ⟨a.signature, input⟩ final i j)
  (hsame : ∀ b, b ∈ i.truths ↔ b ∈ j.truths)
include h0 hm hd hb hi hj hjust hsame

/-- Where the premise holds, a predicate without declarations has the same tally. -/
theorem tally_same {p : Symbol} (hp : input[0]? = some p) :
    tallyOf (entriesOf table i p) = tallyOf (entriesOf later j p) := by
  refine tallyOf_congr hi.grows hj.grows hi.built.snapshot hj.built.snapshot ?_
  intro b hhead
  exact hjust.same_value (hi.faithful hb) hsame hp h0 hm hd (hhead.headedBy (hi.wellFormed hb))

theorem isEmpty_same (hr : a.retrieve = isEmpty) : answer = answer' := by
  obtain ⟨p, hp, rfl⟩ := isEmpty_answers hi hr
  obtain ⟨p', hp', rfl⟩ := isEmpty_answers hj hr
  obtain rfl := Option.some.inj (hp.symm.trans hp')
  rw [tally_same h0 hm hd hb hi hj hjust hsame hp]

theorem numberOfBalls_same (hr : a.retrieve = numberOfBalls) : answer = answer' := by
  obtain ⟨p, x, y, hp, hx, hy, rfl⟩ := numberOfBalls_answers hi hr
  obtain ⟨p', x', y', hp', hx', hy', rfl⟩ := numberOfBalls_answers hj hr
  obtain rfl := Option.some.inj (hp.symm.trans hp')
  obtain rfl := Option.some.inj (hx.symm.trans hx')
  obtain rfl := Option.some.inj (hy.symm.trans hy')
  rw [tally_same h0 hm hd hb hi hj hjust hsame hp]

end Counting

end ExternalAtoms.Bundled
