import ExternalAtoms.Nogood.Log
import ExternalAtoms.Proofs.Nogood.Literals
import Mathlib.Data.List.Induction

/-! # The history of a nogood log

A log is what was inserted into it, without the nogoods that say nothing and without repetitions.
It only grows at its end, so whoever polls it with the number of nogoods received so far is given
exactly what is missing, and has the whole log after every poll.
-/
namespace ExternalAtoms

instance : DecidablePred Nogood.Proper := fun n =>
  inferInstanceAs (Decidable (n.literals ≠ [] ∧ ∀ l ∈ n.literals, l.flip ∉ n.literals))

namespace NogoodLog
variable {log : NogoodLog} {n : Nogood} {history : List Nogood}

theorem contains_iff : log.contains n = true ↔ n ∈ log.toList := by
  rw [contains, decide_eq_true_eq, log.mem_seen_iff, toList, Array.mem_toList_iff]

theorem insert_fst_iff : (log.insert n).1 = true ↔ n.Proper ∧ n ∉ log.toList := by
  rw [← contains_iff, Nogood.proper_iff, Bool.not_eq_true, insert]
  cases n.isEmpty <;> cases n.isTrivial <;> cases log.contains n <;> simp

theorem toList_insert (log : NogoodLog) (n : Nogood) : (log.insert n).2.toList =
    if (log.insert n).1 = true then log.toList ++ [n] else log.toList := by
  rw [insert]
  split
  · rfl
  · exact Array.toList_push

/-- The log after nogoods were inserted into an empty one. -/
def ofHistory (history : List Nogood) : NogoodLog :=
  history.foldl (fun log n => (log.insert n).2) .empty

theorem ofHistory_concat (history : List Nogood) (n : Nogood) :
    ofHistory (history ++ [n]) = ((ofHistory history).insert n).2 := by
  simp [ofHistory]

theorem eraseDups_concat (ns : List Nogood) (n : Nogood) :
    (ns ++ [n]).eraseDups = if n ∈ ns then ns.eraseDups else ns.eraseDups ++ [n] := by
  rw [List.eraseDups_append, List.removeAll, List.filter_cons]
  split <;> simp_all [List.eraseDups_cons]

/-- The log keeps the first occurrence of every proper nogood. -/
theorem toList_ofHistory (history : List Nogood) :
    (ofHistory history).toList = (history.filter fun n => n.Proper).eraseDups := by
  induction history using List.reverseRecOn with
  | nil => rfl
  | append_singleton history n ih =>
    have hnew := @insert_fst_iff (ofHistory history) n
    rw [ih, List.mem_eraseDups] at hnew
    rw [ofHistory_concat, toList_insert, ih, List.filter_append, List.filter_cons, List.filter_nil]
    by_cases hproper : n.Proper
    · rw [if_pos (decide_eq_true hproper), eraseDups_concat]
      simp only [hnew, hproper, true_and, ite_not]
    · rw [if_neg fun h => hproper (hnew.mp h).1, decide_eq_false hproper, if_neg Bool.false_ne_true,
        List.append_nil]

theorem mem_ofHistory : n ∈ (ofHistory history).toList ↔ n.Proper ∧ n ∈ history := by
  rw [toList_ofHistory, List.mem_eraseDups, List.mem_filter, decide_eq_true_eq, and_comm]

theorem size_seen_insert (h : log.seen.size = log.size) :
    (log.insert n).2.seen.size = (log.insert n).2.size := by
  rw [insert]
  split
  · exact h
  · next hnew =>
    have hfresh : n ∉ log.seen := by
      simp only [Bool.or_eq_true, not_or, contains, decide_eq_true_eq] at hnew
      exact hnew.2
    change (log.seen.insert n).size = (log.entries.push n).size
    rw [Std.ExtTreeSet.size_insert, if_neg (by simpa using hfresh), h, Array.size_push, size]

theorem size_seen_ofHistory (history : List Nogood) :
    (ofHistory history).seen.size = (ofHistory history).size := by
  induction history using List.reverseRecOn with
  | nil => rfl
  | append_singleton history n ih =>
    rw [ofHistory_concat]
    exact size_seen_insert ih

theorem nodup_ofHistory (history : List Nogood) : (ofHistory history).toList.Nodup := by
  induction history using List.reverseRecOn with
  | nil => exact List.nodup_nil
  | append_singleton history n ih =>
    rw [ofHistory_concat, toList_insert]
    split
    · next hinserted =>
      have hfresh := (insert_fst_iff.mp hinserted).2
      exact List.nodup_append.mpr ⟨ih, List.pairwise_singleton _ n, fun m hm k hk he =>
        hfresh (List.mem_singleton.mp hk ▸ he ▸ hm)⟩
    · exact ih

theorem toList_prefix_insert (log : NogoodLog) (n : Nogood) :
    log.toList <+: (log.insert n).2.toList := by
  rw [toList_insert]
  split
  · exact List.prefix_append _ _
  · exact List.prefix_refl _

theorem ofHistory_prefix (history later : List Nogood) :
    (ofHistory history).toList <+: (ofHistory (history ++ later)).toList := by
  induction later using List.reverseRecOn with
  | nil => simp
  | append_singleton later n ih =>
    rw [← List.append_assoc, ofHistory_concat]
    exact ih.trans (toList_prefix_insert _ n)

end NogoodLog

/-- A log together with the lists that a reader was given, one for each poll. -/
structure Feed where
  log : NogoodLog
  polled : List (List Nogood)

namespace Feed

inductive Event where
  | insert (n : Nogood)
  /-- The reader asks for the nogoods since as many as it has received. -/
  | poll

def start : Feed := ⟨.empty, []⟩

def received (f : Feed) : List Nogood := f.polled.flatten

def step (f : Feed) : Event → Feed
  | .insert n => { f with log := (f.log.insert n).2 }
  | .poll => { f with polled := f.polled ++ [f.log.since f.received.length] }

def run (events : List Event) : Feed := events.foldl step start

def insertions (events : List Event) : List Nogood :=
  events.filterMap fun
    | .insert n => some n
    | .poll => none

variable {f : Feed} {events : List Event}

theorem run_concat (events : List Event) (event : Event) :
    run (events ++ [event]) = (run events).step event := by
  simp [run]

/-- A poll brings the reader of a front part of the log up to date. -/
theorem received_step_poll (h : f.received <+: f.log.toList) :
    (f.step .poll).received = f.log.toList := by
  obtain ⟨missing, hmissing⟩ := h
  have hsince : f.log.since f.received.length = missing := by
    rw [NogoodLog.since, ← hmissing, List.drop_left]
  have hreceived : (f.step .poll).received = f.received ++ f.log.since f.received.length := by
    simp [step, received]
  rw [hreceived, hsince, hmissing]

theorem received_prefix_step (h : f.received <+: f.log.toList) (event : Event) :
    (f.step event).received <+: (f.step event).log.toList := by
  cases event with
  | insert n => exact h.trans (f.log.toList_prefix_insert n)
  | poll =>
    rw [received_step_poll h]
    exact List.prefix_refl _

theorem received_prefix_run (events : List Event) :
    (run events).received <+: (run events).log.toList := by
  induction events using List.reverseRecOn with
  | nil => exact List.prefix_refl _
  | append_singleton events event ih =>
    rw [run_concat]
    exact received_prefix_step ih event

theorem insertions_append (events others : List Event) :
    insertions (events ++ others) = insertions events ++ insertions others :=
  List.filterMap_append

theorem log_run (events : List Event) : (run events).log = .ofHistory (insertions events) := by
  induction events using List.reverseRecOn with
  | nil => rfl
  | append_singleton events event ih =>
    rw [run_concat, insertions_append]
    cases event with
    | insert n =>
      rw [show insertions [.insert n] = [n] from rfl, NogoodLog.ofHistory_concat, ← ih]
      rfl
    | poll =>
      rw [show insertions [.poll] = [] from rfl, List.append_nil, ← ih]
      rfl

end Feed

namespace NogoodLog

/-- A log lists the proper nogoods of its history, each at its first occurrence, and a reader that
polls it receives them all, once each and in order. -/
theorem first_occurrences_in_order (history : List Nogood) :
    let log := ofHistory history
    log.toList = (history.filter fun n => n.Proper).eraseDups ∧ log.toList.Nodup ∧
      (∀ n, ((log.insert n).1 = true ↔ n.Proper ∧ n ∉ history) ∧
        ((log.insert n).1 = true ↔ (log.insert n).2.toList = log.toList ++ [n]) ∧
        ((log.insert n).1 = false ↔ (log.insert n).2.toList = log.toList)) ∧
      (∀ n, log.contains n = true ↔ n ∈ log.toList) ∧
      log.size = log.toList.length ∧ log.seen.size = log.toList.length ∧
      (∀ later, log.toList <+: (ofHistory (history ++ later)).toList) ∧
      (∀ beyond, log.since (log.size + beyond) = []) ∧
      ∀ events, (Feed.run events).log = ofHistory (Feed.insertions events) ∧
        (Feed.run events).received <+: (Feed.run events).log.toList ∧
        (Feed.run (events ++ [.poll])).received = (Feed.run (events ++ [.poll])).log.toList := by
  intro log
  have hinsert : ∀ n, (log.insert n).1 = true ↔ n.Proper ∧ n ∉ history := by
    intro n
    rw [insert_fst_iff, mem_ofHistory]
    tauto
  refine ⟨toList_ofHistory history, nodup_ofHistory history, fun n => ⟨hinsert n, ?_, ?_⟩,
    fun n => contains_iff, ?_, ?_, ofHistory_prefix history, ?_, fun events =>
      ⟨Feed.log_run events, Feed.received_prefix_run events, ?_⟩⟩
  · rw [toList_insert]
    split <;> simp [*]
  · rw [toList_insert]
    split <;> simp [*]
  · exact Array.length_toList.symm
  · rw [size_seen_ofHistory]
    exact Array.length_toList.symm
  · intro beyond
    rw [since, List.drop_eq_nil_iff, show log.toList.length = log.size from Array.length_toList]
    exact Nat.le_add_right _ _
  · rw [Feed.run_concat]
    exact Feed.received_step_poll (Feed.received_prefix_run events)

end NogoodLog

end ExternalAtoms
