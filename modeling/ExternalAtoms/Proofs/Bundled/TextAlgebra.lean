import ExternalAtoms.Proofs.Bundled.TextCalls
import Mathlib.Algebra.Ring.Int.Defs

/-! # The algebra of texts

The atoms of the string plugin compute with the texts of their operands. The results go through
quoting, storing, writing and reading before the next atom gets them, and nothing is lost on the
way: joining is associative, lengths add up, and a text is the join of the parts it is cut into. The
laws hold between any calls of a session, whatever else it stores and evaluates.
-/
namespace ExternalAtoms
open SymbolTable Evaluator

/-- Some call of the session that led to the final table had this output. -/
def Plugin.Yields (p : Plugin) (final : SymbolTable) (name : String) (input : List Symbol)
    (s : Symbol) : Prop :=
  ∃ c : Call, c.LeadsTo p final ∧ c.predicate = name ∧ c.query.input = input ∧ c.Outputs s

namespace Bundled
variable {final : SymbolTable} {c : Evaluator.Call} {xs : List Symbol} {x k n s : Symbol}
  {t : String}

theorem joinedText_append (xs ys : List Symbol) :
    joinedText final (xs ++ ys) = joinedText final xs ++ joinedText final ys := by
  rw [joinedText, List.map_append, String.join_append]
  rfl

theorem joinedText_singleton (x : Symbol) : joinedText final [x] = final.plainText x := by
  simp [joinedText]

section Length
variable {lengths : Symbol → Int64}

theorem sum_lengths (h : ∀ x ∈ xs, lengths x = Int64.ofNat (final.plainText x).length) :
    (xs.map lengths).sum = Int64.ofNat (joinedText final xs).length := by
  induction xs with
  | nil => simp [joinedText]
  | cons x rest ih =>
    rw [List.map_cons, List.sum_cons, h x List.mem_cons_self,
      ih fun y hy => h y (List.mem_cons_of_mem x hy), ← Int64.ofNat_add, ← String.length_append,
      ← joinedText_singleton, ← joinedText_append, List.singleton_append]

/-- A text that is short enough has no part whose length would not be an integer. -/
theorem sum_toInt_lengths (h : ∀ x ∈ xs, lengths x = Int64.ofNat (final.plainText x).length)
    (hbound : (joinedText final xs).length < 2 ^ 63) :
    (xs.map fun x => (lengths x).toInt).sum = (joinedText final xs).length := by
  induction xs with
  | nil => simp [joinedText]
  | cons x rest ih =>
    rw [← List.singleton_append, joinedText_append, joinedText_singleton,
      String.length_append] at hbound
    rw [List.map_cons, List.sum_cons, h x List.mem_cons_self,
      ih (fun y hy => h y (List.mem_cons_of_mem x hy)) (by omega),
      Int64.toInt_ofNat_of_lt (by omega), ← List.singleton_append, joinedText_append,
      joinedText_singleton, String.length_append]
    exact (Int.natCast_add _ _).symm

end Length

section Cut

theorem toList_cutText (t : String) (start count : Int64) : (cutText t start count).toList =
    (t.toList.drop (max start.toInt 0).toNat).take (max count.toInt 0).toNat := by
  have hclamp : ∀ value : Int, value.toNat = (max value 0).toNat := fun value => by omega
  rw [cutText, String.toList_ofList, hclamp start.toInt, hclamp count.toInt]

theorem cutText_append {k n : Int64} (hk : 0 ≤ k.toInt)
    (hn : (t.length : Int) - k.toInt ≤ n.toInt) : cutText t 0 k ++ cutText t k n = t := by
  have hrest : (t.toList.drop k.toInt.toNat).length ≤ n.toInt.toNat := by
    rw [List.length_drop, String.length_toList]
    omega
  rw [← String.toList_inj, String.toList_append, cutText, cutText, String.toList_ofList,
    String.toList_ofList, List.take_of_length_le hrest]
  exact List.take_append_drop _ _

end Cut

theorem offers_concat : stringPlugin.Offers "concat" [.tuple] concat :=
  ⟨_, List.mem_cons_self, rfl, rfl, rfl, rfl⟩

theorem offers_strlen : stringPlugin.Offers "strlen" [.constant] strlen :=
  ⟨_, List.mem_cons_of_mem _ List.mem_cons_self, rfl, rfl, rfl, rfl⟩

theorem offers_substr : stringPlugin.Offers "substr" [.constant, .constant, .constant] substr :=
  ⟨_, List.mem_cons_of_mem _ (List.mem_cons_of_mem _ List.mem_cons_self), rfl, rfl, rfl, rfl⟩

section Laws
variable (hb : final.size ≤ 2 ^ 31)
include hb

section Join
variable {p : Plugin} {name : String} {program : Query → Retrieval Answer}
  (quoted : List Operand → Bool) (ho : p.Offers name [.tuple] program)
  (hprogram : ∀ q, program q = readOperands q.input >>= fun operands =>
    storeText (joinTexts operands) (quoted operands) >>= fun s => pure (.ofTuples [[s]]))
include ho hprogram

theorem join_outputs (h : c.LeadsTo p final) (hname : c.predicate = name)
    (husable : ∀ x ∈ c.query.input, c.table.Usable x) : ∃ s, c.Outputs s := by
  obtain ⟨a, hruns⟩ := Evaluator.Call.exists_runs_of_usable h hb ho hname (by decide)
    (fun s hs => by simp [Signature.TakesLength, hs]) husable
  obtain ⟨s, hs, -⟩ := outputs_join hruns quoted hprogram
  exact ⟨s, hs⟩

theorem join_text (h : p.Yields final name xs s) :
    final.constant (if quoted (xs.map fun x => ⟨final.plainText x, final.isString x⟩)
      then Text.quote (joinedText final xs) else joinedText final xs) = (s, final) := by
  obtain ⟨c, hleads, hname, rfl, hs⟩ := h
  obtain ⟨a, hruns⟩ := hs.exists_runs hleads hb ho hname
  obtain ⟨s', hs', hstored⟩ := outputs_join hruns quoted hprogram
  rw [hs.unique hs']
  exact hstored

end Join

theorem concat_text (h : stringPlugin.Yields final "concat" xs s) :
    final.string (joinedText final xs) = (s, final) :=
  join_text hb (fun _ => true) offers_concat (fun _ => rfl) h

theorem strlen_outputs (h : c.LeadsTo stringPlugin final) (hname : c.predicate = "strlen")
    (hx : c.query.input = [x]) (husable : c.table.Usable x) : ∃ n, c.Outputs n := by
  obtain ⟨a, hruns⟩ := Evaluator.Call.exists_runs_of_usable h hb offers_strlen hname (by decide)
    (fun s hs => by simp [Signature.TakesLength, hs, hx]) (by simpa [hx] using husable)
  obtain ⟨n, hn, -⟩ := outputs_strlen hruns (by rw [hx]; rfl)
  exact ⟨n, hn⟩

theorem strlen_text (h : stringPlugin.Yields final "strlen" [x] n) :
    final.integer (Int64.ofNat (final.plainText x).length) = (n, final) := by
  obtain ⟨c, hleads, hname, hx, hn⟩ := h
  obtain ⟨a, hruns⟩ := hn.exists_runs hleads hb offers_strlen hname
  obtain ⟨n', hn', hstored⟩ := outputs_strlen hruns (by rw [hx]; rfl)
  rw [hn.unique hn']
  exact hstored

theorem substr_outputs (h : c.LeadsTo stringPlugin final) (hname : c.predicate = "substr")
    (hx : c.query.input = [x, k, n]) (husable : ∀ y ∈ c.query.input, c.table.Usable y)
    {start count : Int64} (hstart : c.table.integer? k = some start)
    (hcount : c.table.integer? n = some count) : ∃ s, c.Outputs s := by
  obtain ⟨a, hruns⟩ := Evaluator.Call.exists_runs_of_usable h hb offers_substr hname (by decide)
    (fun s hs => by simp [Signature.TakesLength, hs, hx]) husable
  obtain ⟨s, hs, -⟩ := outputs_substr hruns (by rw [hx]; rfl) (by rw [hx]; exact hstart)
    (by rw [hx]; exact hcount)
  exact ⟨s, hs⟩

theorem substr_text (h : stringPlugin.Yields final "substr" [x, k, n] s) {start count : Int64}
    (hstart : final.integer? k = some start) (hcount : final.integer? n = some count) :
    final.constant (if final.isString x then Text.quote (cutText (final.plainText x) start count)
      else cutText (final.plainText x) start count) = (s, final) := by
  obtain ⟨c, hleads, hname, hx, hs⟩ := h
  obtain ⟨a, hruns⟩ := hs.exists_runs hleads hb offers_substr hname
  have hinteger : ∀ {y : Symbol} {value : Int64}, y ∈ c.query.input →
      final.integer? y = some value → c.table.integer? y = some value := by
    intro y value hy hvalue
    obtain ⟨t, ht⟩ := isKnown_iff.mp (hruns.usable hy).2
    rw [integer?_eq_some_iff] at hvalue ⊢
    rw [ht, ← hruns.toExtends.resolve ht, hvalue]
  have hsecond := hinteger (by simp [hx]) hstart
  have hthird := hinteger (by simp [hx]) hcount
  obtain ⟨s', hs', hstored⟩ := outputs_substr hruns (by rw [hx]; rfl) (by rw [hx]; exact hsecond)
    (by rw [hx]; exact hthird)
  rw [hs.unique hs']
  exact hstored

theorem text_call_outputs (hw : WellFormed final) (h : c.LeadsTo stringPlugin final)
    (husable : ∀ x ∈ c.query.input, c.table.Usable x)
    (hcall : c.predicate = "concat" ∨ (c.predicate = "strlen" ∧ ∃ x, c.query.input = [x]) ∨
      c.predicate = "substr" ∧ ∃ x k n start count, c.query.input = [x, k, n] ∧
        c.table.integer? k = some start ∧ c.table.integer? n = some count) :
    ∃ s, c.Outputs s ∧ final.Usable s := by
  have hextends := (c.outcome_reaches.trans h.reaches).toExtends
  rcases hcall with hname | ⟨hname, x, hx⟩ | ⟨hname, x, k, n, start, count, hx, hstart, hcount⟩
  · obtain ⟨s, hs⟩ := join_outputs hb (fun _ => true) offers_concat (fun _ => rfl) h hname husable
    exact ⟨s, hs, hw.usable_of_constant (concat_text hb ⟨c, h, hname, rfl, hs⟩)⟩
  · obtain ⟨n, hn⟩ := strlen_outputs hb h hname hx (husable x (by simp [hx]))
    exact ⟨n, hn, (hw.integer?_of_integer (strlen_text hb ⟨c, h, hname, hx, hn⟩)).1⟩
  · obtain ⟨s, hs⟩ := substr_outputs hb h hname hx husable hstart hcount
    exact ⟨s, hs, hw.usable_of_constant (substr_text hb ⟨c, h, hname, hx, hs⟩
      (hextends.integer? hstart) (hextends.integer? hcount))⟩

end Laws

/-- The string atoms answer every call on usable operands, and the answers form an algebra: a join
is the string of the joined texts, so it may be regrouped, and a string joined alone stays what it
is; the length of a join is the sum of the lengths; a cut takes the characters from a position on,
with what is negative counted as zero; and a string is the join of the two parts at any position. -/
theorem string_atoms_form_algebra (hr : Reaches .empty final) (hb : final.size ≤ 2 ^ 31) :
    let yields := stringPlugin.Yields final
    (∀ c : Evaluator.Call, c.LeadsTo stringPlugin final →
      (∀ x ∈ c.query.input, c.table.Usable x) →
      (c.predicate = "concat" ∨ (c.predicate = "strlen" ∧ ∃ x, c.query.input = [x]) ∨
        c.predicate = "substr" ∧ ∃ x k n start count, c.query.input = [x, k, n] ∧
          c.table.integer? k = some start ∧ c.table.integer? n = some count) →
      ∃ s, c.Outputs s ∧ final.Usable s) ∧
    (∀ xs s, yields "concat" xs s →
      final.string (String.join (xs.map final.plainText)) = (s, final)) ∧
    (∀ xs ys zs m s s', yields "concat" ys m → yields "concat" (xs ++ [m] ++ zs) s →
      yields "concat" (xs ++ ys ++ zs) s' → s = s') ∧
    (∀ t x s, final.string t = (x, final) → yields "concat" [x] s → s = x) ∧
    (∀ xs s n (lengths : Symbol → Int64), yields "concat" xs s → yields "strlen" [s] n →
      (∀ x ∈ xs, ∃ m, yields "strlen" [x] m ∧ final.integer? m = some (lengths x)) →
      final.integer? n = some (xs.map lengths).sum ∧
        ((final.plainText s).length < 2 ^ 63 →
          (xs.map lengths).sum.toInt = (xs.map fun x => (lengths x).toInt).sum)) ∧
    (∀ t x k n start count s, final.string t = (x, final) → final.integer? k = some start →
      final.integer? n = some count → yields "substr" [x, k, n] s →
      final.string (.ofList ((t.toList.drop (max start.toInt 0).toNat).take
        (max count.toInt 0).toNat)) = (s, final)) ∧
    ∀ t x z k n (position count : Int64) first second s, final.string t = (x, final) →
      final.integer? z = some 0 → final.integer? k = some position →
      final.integer? n = some count → 0 ≤ position.toInt →
      (t.length : Int) - position.toInt ≤ count.toInt → yields "substr" [x, z, k] first →
      yields "substr" [x, k, n] second → yields "concat" [first, second] s → s = x := by
  have hw := hr.wellFormed hb
  -- a part of a string is a string again
  have hcut : ∀ {t x k n start count s}, final.string t = (x, final) →
      final.integer? k = some start → final.integer? n = some count →
      stringPlugin.Yields final "substr" [x, k, n] s →
        final.string (cutText t start count) = (s, final) := by
    intro t x k n start count s hx hstart hcount hs
    obtain ⟨hstring, htext⟩ := hw.plainText_of_string hx
    have hstored := substr_text hb hs hstart hcount
    rwa [if_pos hstring, htext] at hstored
  intro yields
  refine ⟨fun c h husable hcall => text_call_outputs hb hw h husable hcall,
    fun xs s hs => concat_text hb hs, fun xs ys zs m s s' hm hs hs' => ?_, fun t x s hx hs => ?_,
    fun xs s n lengths hs hn hlengths => ?_, fun t x k n start count s hx hstart hcount hs => ?_,
    fun t x z k n position count first second s hx hz hk hn hposition hcount hfirst hsecond hs =>
      ?_⟩
  · have hmiddle := (hw.plainText_of_string (concat_text hb hm)).2
    have hstored := concat_text hb hs
    rw [joinedText_append, joinedText_append, joinedText_singleton, hmiddle, ← joinedText_append,
      ← joinedText_append, concat_text hb hs'] at hstored
    exact (Prod.mk.inj hstored).1.symm
  · have hstored := concat_text hb hs
    rw [joinedText_singleton, (hw.plainText_of_string hx).2, hx] at hstored
    exact (Prod.mk.inj hstored).1.symm
  · have hvalues : ∀ x ∈ xs, lengths x = Int64.ofNat (final.plainText x).length := by
      intro x hx
      obtain ⟨m, hm, hvalue⟩ := hlengths x hx
      exact Option.some.inj (hvalue.symm.trans (hw.integer?_of_integer (strlen_text hb hm)).2)
    rw [sum_lengths hvalues, ← (hw.plainText_of_string (concat_text hb hs)).2]
    refine ⟨(hw.integer?_of_integer (strlen_text hb hn)).2, fun hbound => ?_⟩
    rw [Int64.toInt_ofNat_of_lt hbound]
    rw [(hw.plainText_of_string (concat_text hb hs)).2] at hbound ⊢
    exact (sum_toInt_lengths hvalues hbound).symm
  · have hstored := hcut hx hstart hcount hs
    rwa [← toList_cutText, String.ofList_toList]
  · have hleft := (hw.plainText_of_string (hcut hx hz hk hfirst)).2
    have hright := (hw.plainText_of_string (hcut hx hk hn hsecond)).2
    have hstored := concat_text hb hs
    rw [← List.singleton_append, joinedText_append, joinedText_singleton, joinedText_singleton,
      hleft, hright, cutText_append hposition hcount, hx] at hstored
    exact (Prod.mk.inj hstored).1.symm

/-- The string `a"b` and the integers at which it is cut. -/
def oneText : SymbolTable :=
  SymbolTable.empty.runAll [.string "a\"b", .integer 0, .integer 1, .integer 7]

def firstCut : Evaluator.Call := ⟨equipped, "substr", ⟨[⟨0⟩, ⟨2⟩, ⟨4⟩], .empty⟩, oneText⟩

def secondCut : Evaluator.Call :=
  ⟨firstCut.outcome.evaluator, "substr", ⟨[⟨0⟩, ⟨4⟩, ⟨6⟩], .empty⟩, firstCut.outcome.table⟩

def rejoined : Evaluator.Call :=
  ⟨secondCut.outcome.evaluator, "concat", ⟨[⟨8⟩, ⟨12⟩], .empty⟩, secondCut.outcome.table⟩

/-- The quote goes through an escape and back, and the parts make up the string again. -/
theorem string_atoms_form_algebra_rejoined :
    firstCut.Outputs ⟨8⟩ ∧ secondCut.Outputs ⟨12⟩ ∧ rejoined.Outputs ⟨0⟩ := by
  have hstart : Reaches .empty oneText := runAll_reaches _ _
  have hfirst := firstCut.outcome_reaches
  have hsecond := secondCut.outcome_reaches
  have hthird := rejoined.outcome_reaches
  have hruns : (∀ x ∈ firstCut.query.input, firstCut.table.Usable x) ∧
      (∀ x ∈ secondCut.query.input, secondCut.table.Usable x) ∧
      (∀ x ∈ rejoined.query.input, rejoined.table.Usable x) ∧
      rejoined.outcome.table.size ≤ 2 ^ 31 ∧
      (rejoined.outcome.table.string "a").1 = ⟨8⟩ ∧
      (rejoined.outcome.table.string "\"b").1 = ⟨12⟩ := by
    decide +kernel
  obtain ⟨husable, husable', husable'', hb, hpart, hpart'⟩ := hruns
  have hloads : ∀ {c : Evaluator.Call}, c.evaluator.registry.Loads stringPlugin →
      c.outcome.evaluator.registry.Loads stringPlugin := fun h => by
    rwa [Evaluator.Call.outcome_registry]
  have hleads : firstCut.LeadsTo stringPlugin rejoined.outcome.table :=
    ⟨equipped_loads.1, .empty hstart, hsecond.trans hthird⟩
  have hleads' : secondCut.LeadsTo stringPlugin rejoined.outcome.table :=
    ⟨hloads equipped_loads.1, .empty (hstart.trans hfirst), hthird⟩
  have hleads'' : rejoined.LeadsTo stringPlugin rejoined.outcome.table :=
    ⟨hloads (hloads equipped_loads.1), .empty ((hstart.trans hfirst).trans hsecond), .refl⟩
  -- the string and the integers are what they were when they were stored
  have hlater := (hfirst.trans hsecond).trans hthird
  have hx : rejoined.outcome.table.string "a\"b" = (⟨0⟩, rejoined.outcome.table) := by
    have hstored : Reaches (SymbolTable.empty.string "a\"b").2 rejoined.outcome.table :=
      (runAll_reaches _ [.integer 0, .integer 1, .integer 7]).trans hlater
    have hadmits := Reaches.admits (run_reaches (.string "a\"b") .empty)
    exact constant_again (Reaches.grows hadmits hstored)
  have hintegers : rejoined.outcome.table.integer? ⟨2⟩ = some 0 ∧
      rejoined.outcome.table.integer? ⟨4⟩ = some 1 ∧
      rejoined.outcome.table.integer? ⟨6⟩ = some 7 :=
    ⟨hlater.toExtends.integer? rfl, hlater.toExtends.integer? rfl, hlater.toExtends.integer? rfl⟩
  obtain ⟨hzero, hone, hseven⟩ := hintegers
  obtain ⟨hanswers, -, -, -, -, hcuts, hjoins⟩ :=
    string_atoms_form_algebra (hstart.trans hlater) hb
  obtain ⟨first, hs, -⟩ := hanswers firstCut hleads husable
    (Or.inr (Or.inr ⟨rfl, _, _, _, 0, 1, rfl, rfl, rfl⟩))
  obtain ⟨second, hs', -⟩ := hanswers secondCut hleads' husable'
    (Or.inr (Or.inr ⟨rfl, _, _, _, 1, 7, rfl, hfirst.toExtends.integer? rfl,
      hfirst.toExtends.integer? rfl⟩))
  obtain ⟨joined, hs'', -⟩ := hanswers rejoined hleads'' husable'' (Or.inl rfl)
  obtain rfl : first = ⟨8⟩ := by
    have hstored := hcuts _ _ _ _ _ _ _ hx hzero hone ⟨firstCut, hleads, rfl, rfl, hs⟩
    exact (congrArg Prod.fst hstored).symm.trans hpart
  obtain rfl : second = ⟨12⟩ := by
    have hstored := hcuts _ _ _ _ _ _ _ hx hone hseven ⟨secondCut, hleads', rfl, rfl, hs'⟩
    exact (congrArg Prod.fst hstored).symm.trans hpart'
  obtain rfl := hjoins _ _ _ _ _ _ _ _ _ _ hx hzero hone hseven (by decide) (by decide)
    ⟨firstCut, hleads, rfl, rfl, hs⟩ ⟨secondCut, hleads', rfl, rfl, hs'⟩
    ⟨rejoined, hleads'', rfl, rfl, hs''⟩
  exact ⟨hs, hs', hs''⟩

end Bundled

end ExternalAtoms
