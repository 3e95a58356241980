import ExternalAtoms.Answer
import Mathlib.Data.List.Induction
import Mathlib.Data.List.Perm.Basic

/-! # Reports to an answer

An answer is built from reports, and what it says of a tuple depends only on which reports of the
tuple there were, in whatever order they came: it is true when it was once reported as true, and
unknown when it was only ever reported as unknown.
-/
namespace ExternalAtoms

inductive Report where
  | output (tuple : Tuple)
  | outputUnknown (tuple : Tuple)
deriving DecidableEq

namespace Answer
variable {a : Answer} {t first : Tuple} {tuples : List Tuple} {reports : List Report}

theorem mem_settle : t ∈ (a.settle first).trueTuples ↔ t = first ∨ t ∈ a.trueTuples := by
  rw [settle, Std.ExtTreeSet.mem_insert, Std.LawfulEqCmp.compare_eq_iff_eq, @eq_comm _ first]

theorem mem_foldl_settle :
    t ∈ (tuples.foldl settle a).trueTuples ↔ t ∈ a.trueTuples ∨ t ∈ tuples := by
  induction tuples generalizing a with
  | nil => simp
  | cons first rest ih =>
    rw [List.foldl_cons, ih, mem_settle, List.mem_cons, or_assoc, or_left_comm]

theorem mem_ofTuples : t ∈ (ofTuples tuples).trueTuples ↔ t ∈ tuples := by
  rw [ofTuples, mem_foldl_settle]
  simp [empty]

theorem unknownTuples_ofTuples (tuples : List Tuple) : (ofTuples tuples).unknownTuples = ∅ := by
  rw [ofTuples]
  refine List.foldlRecOn tuples settle (motive := fun a : Answer => a.unknownTuples = ∅) rfl ?_
  intro a ha first _
  change a.unknownTuples.erase first = ∅
  rw [ha, Std.ExtTreeSet.erase_empty]

/-- The reply to a report and the answer after it. -/
def report (a : Answer) : Report → Bool × Answer
  | .output tuple => a.output tuple
  | .outputUnknown tuple => a.outputUnknown tuple

/-- Makes reports in turn and gives the replies, with the answer after all of them. -/
def reportAll (a : Answer) : List Report → List Bool × Answer
  | [] => ([], a)
  | r :: rest =>
    let replied := a.report r
    let others := replied.2.reportAll rest
    (replied.1 :: others.1, others.2)

theorem mem_trueTuples_report {r : Report} :
    t ∈ (a.report r).2.trueTuples ↔ r = .output t ∨ t ∈ a.trueTuples := by
  cases r with
  | output tuple =>
    rw [report, output, mem_settle, Report.output.injEq, @eq_comm _ t]
  | outputUnknown tuple =>
    rw [report, outputUnknown]
    split <;> simp [suspect]

theorem mem_unknownTuples_report {r : Report} : t ∈ (a.report r).2.unknownTuples ↔
    (r = .outputUnknown t ∨ t ∈ a.unknownTuples) ∧ r ≠ .output t ∧ t ∉ a.trueTuples := by
  have hdisjoint := a.disjoint t
  cases r with
  | output tuple =>
    rw [report, output, settle]
    rw [Std.ExtTreeSet.mem_erase]
    grind
  | outputUnknown tuple =>
    rw [report, outputUnknown]
    split
    · grind
    · simp only [suspect, Std.ExtTreeSet.mem_insert, Std.LawfulEqCmp.compare_eq_iff_eq]
      grind

theorem mem_trueTuples_reportAll :
    t ∈ (a.reportAll reports).2.trueTuples ↔ t ∈ a.trueTuples ∨ .output t ∈ reports := by
  induction reports generalizing a with
  | nil => simp [reportAll]
  | cons r rest ih =>
    simp only [reportAll]
    rw [ih, mem_trueTuples_report, List.mem_cons, @eq_comm _ r, or_assoc, or_left_comm]

theorem mem_unknownTuples_reportAll : t ∈ (a.reportAll reports).2.unknownTuples ↔
    (t ∈ a.unknownTuples ∨ .outputUnknown t ∈ reports) ∧ t ∉ a.trueTuples ∧
      .output t ∉ reports := by
  induction reports generalizing a with
  | nil =>
    have hdisjoint := a.disjoint t
    simp only [reportAll, List.not_mem_nil]
    tauto
  | cons r rest ih =>
    simp only [reportAll]
    rw [ih, mem_trueTuples_report, mem_unknownTuples_report, List.mem_cons, List.mem_cons]
    grind

theorem getElem?_reportAll {k : Nat} {r : Report} (h : reports[k]? = some r) :
    (a.reportAll reports).1[k]? = some ((a.reportAll (reports.take k)).2.report r).1 := by
  induction reports generalizing a k with
  | nil => simp at h
  | cons first rest ih =>
    cases k with
    | zero => simp_all [reportAll]
    | succ k => simpa [reportAll] using ih h

theorem length_reportAll : (a.reportAll reports).1.length = reports.length := by
  induction reports generalizing a with
  | nil => rfl
  | cons r rest ih => simp [reportAll, ih]

theorem mem_trueTuples_of_reports :
    t ∈ (empty.reportAll reports).2.trueTuples ↔ .output t ∈ reports := by
  rw [mem_trueTuples_reportAll, or_iff_right]
  exact Std.ExtTreeSet.not_mem_empty

theorem mem_unknownTuples_of_reports : t ∈ (empty.reportAll reports).2.unknownTuples ↔
    .outputUnknown t ∈ reports ∧ .output t ∉ reports := by
  have htrue : t ∉ empty.trueTuples := Std.ExtTreeSet.not_mem_empty
  have hunknown : t ∉ empty.unknownTuples := Std.ExtTreeSet.not_mem_empty
  rw [mem_unknownTuples_reportAll, or_iff_right hunknown, and_iff_right htrue]

theorem reportAll_congr {others : List Report} (h : ∀ r, r ∈ others ↔ r ∈ reports) :
    (empty.reportAll others).2 = (empty.reportAll reports).2 := by
  refine Answer.ext (Std.ExtTreeSet.ext_mem fun t => ?_) (Std.ExtTreeSet.ext_mem fun t => ?_)
  · rw [mem_trueTuples_of_reports, mem_trueTuples_of_reports, h]
  · rw [mem_unknownTuples_of_reports, mem_unknownTuples_of_reports, h, h]

/-- What an answer says of a tuple, and what the reports of the tuple are answered, follows from
the reports there were, and the order of the reports does not matter to the answer. -/
theorem reports_in_any_order (reports : List Report) :
    let reported := empty.reportAll reports
    (∀ t, (reported.2.isTrue t = true ↔ .output t ∈ reports) ∧
      (reported.2.isUnknown t = true ↔ .outputUnknown t ∈ reports ∧ .output t ∉ reports) ∧
      (reported.2.isTrue t && reported.2.isUnknown t) = false) ∧
    reported.1.length = reports.length ∧
    (∀ k t, reports[k]? = some (.output t) →
      (reported.1[k]? = some true ↔ .output t ∉ reports.take k)) ∧
    (∀ k t, reports[k]? = some (.outputUnknown t) →
      (reported.1[k]? = some true ↔
        .outputUnknown t ∉ reports.take k ∧ .output t ∉ reports.take k)) ∧
    ∀ others, others.Perm reports → (empty.reportAll others).2 = reported.2 := by
  intro reported
  have htrue : ∀ t, reported.2.isTrue t = true ↔ .output t ∈ reports := fun t => by
    rw [isTrue, decide_eq_true_eq, mem_trueTuples_of_reports]
  have hunknown : ∀ t, reported.2.isUnknown t = true ↔
      .outputUnknown t ∈ reports ∧ .output t ∉ reports := fun t => by
    rw [isUnknown, decide_eq_true_eq, mem_unknownTuples_of_reports]
  refine ⟨fun t => ⟨htrue t, hunknown t, ?_⟩, length_reportAll, fun k t h => ?_, fun k t h => ?_,
    fun others h => reportAll_congr fun r => h.mem_iff⟩
  · rw [Bool.eq_false_iff, Ne, Bool.and_eq_true, htrue, hunknown]
    tauto
  · rw [getElem?_reportAll h, report, output, Option.some.injEq, Bool.not_eq_true', isTrue,
      decide_eq_false_iff_not, mem_trueTuples_of_reports]
  · rw [getElem?_reportAll h, report, outputUnknown, Option.some.injEq]
    split
    · next hmem =>
      rw [mem_trueTuples_of_reports] at hmem
      simp [hmem]
    · next hmem =>
      rw [mem_trueTuples_of_reports] at hmem
      rw [Bool.not_eq_true', isUnknown, decide_eq_false_iff_not, mem_unknownTuples_of_reports]
      tauto

/-- The second report settles the tuple for good, so the third is not new, and in another order the
answer is the same. -/
theorem reports_in_any_order_settled :
    let reports : List Report := [.outputUnknown [⟨2⟩], .output [⟨2⟩], .outputUnknown [⟨2⟩]]
    (empty.reportAll reports).1[1]? = some true ∧ (empty.reportAll reports).1[2]? ≠ some true ∧
      (empty.reportAll [.output [⟨2⟩], .outputUnknown [⟨2⟩], .outputUnknown [⟨2⟩]]).2 =
        (empty.reportAll reports).2 := by
  intro reports
  obtain ⟨-, -, houtput, hunknown, hperm⟩ := reports_in_any_order reports
  refine ⟨(houtput 1 [⟨2⟩] rfl).mpr (by decide), fun h => ?_, hperm _ (List.Perm.swap _ _ _)⟩
  exact absurd ((hunknown 2 [⟨2⟩] rfl).mp h).1 (by decide)

end Answer

end ExternalAtoms
