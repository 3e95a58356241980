import ExternalAtoms.Proofs.Bundled.Faults
import ExternalAtoms.Proofs.Retrieval.Replay
import ExternalAtoms.Proofs.Symbol.Rendering
import ExternalAtoms.Proofs.Text.Quoted

/-! # The texts of operands

What an operand contributes to a text is what is written for it, without the quotes and escapes if
it is a string. Whether it is one can be told from what is written: a function ends in a parenthesis
and an integer begins with a digit or a minus sign, so among the written forms of usable symbols
only those of strings stand between quotes.
-/
namespace ExternalAtoms
open SymbolTable

namespace Text
variable {text : String} {c : Char} {cs : List Char}

theorem isQuoted_iff : isQuoted text = true ↔
    2 ≤ text.toList.length ∧ text.toList.head? = some '"' ∧ text.toList.getLast? = some '"' := by
  simp [isQuoted, isQuotedList, and_assoc]

theorem not_isQuoted_of_head (h : text.toList = c :: cs) (hc : c ≠ '"') :
    isQuoted text = false := by
  rw [← Bool.not_eq_true, isQuoted_iff, h, List.head?_cons, Option.some.injEq]
  exact fun hquoted => hc hquoted.2.1

theorem not_isQuoted_of_last (h : text.toList = cs ++ [c]) (hc : c ≠ '"') :
    isQuoted text = false := by
  rw [← Bool.not_eq_true, isQuoted_iff, h, List.getLast?_concat, Option.some.injEq]
  exact fun hquoted => hc hquoted.2.2

theorem not_isQuoted_of_not_mem (h : '"' ∉ text.toList) : isQuoted text = false := by
  rw [← Bool.not_eq_true, isQuoted_iff]
  exact fun hquoted => h (List.mem_of_mem_head? hquoted.2.1)

theorem not_isQuoted_integerText (value : Int) : isQuoted (Tree.integerText value) = false := by
  obtain ⟨c, rest, hdigits, hc⟩ := head_repr value.natAbs
  have htext := toList_integerText value
  rw [hdigits] at htext
  split at htext
  · exact not_isQuoted_of_head htext (by decide)
  · refine not_isQuoted_of_head htext ?_
    rintro rfl
    exact absurd hc (by decide)

theorem not_isQuoted_function (name : String) (args : List Tree) :
    isQuoted (Tree.function name args).text = false := by
  have htext : (Tree.function name args).text.toList =
      (name ++ "(" ++ Tree.argumentsText args).toList ++ [')'] := by
    rw [Tree.text, String.toList_append]
    rfl
  exact not_isQuoted_of_last htext (by decide)

end Text

namespace SymbolTable
variable {table later : SymbolTable} {s : Symbol} {t : String}

instance (table : SymbolTable) (s : Symbol) : Decidable (table.Usable s) :=
  inferInstanceAs (Decidable (_ ∧ _))

/-- What is written for the symbol, without quotes and escapes if it is a string. -/
def plainText (table : SymbolTable) (s : Symbol) : String :=
  if table.isString s then Text.unquote (table.describe s) else table.describe s

theorem describe_of_tree {tree : Tree} (hs : s.isNegated = false) (h : table.tree s = .ok tree) :
    table.describe s = tree.text := by
  simp [describe, render_of_tree h, hs]

/-- Among the usable symbols the strings are those that are written between quotes. -/
theorem WellFormed.isString_eq (hw : WellFormed table) (hs : table.Usable s) :
    table.isString s = Text.isQuoted (table.describe s) := by
  obtain ⟨term, hterm⟩ := isKnown_iff.mp hs.2
  cases term with
  | constant name =>
    rw [describe_of_tree hs.1 (tree_constant hterm), Tree.text, isString, hterm]
    simp only [hw.admits.resolve?_constant hterm, Option.any_some]
  | integer value =>
    rw [describe_of_tree hs.1 (tree_integer hterm), Tree.text, Text.not_isQuoted_integerText]
    simp only [isString, hterm]
  | function name args =>
    obtain ⟨tree, htree⟩ := hw.tree_ok hs.2
    obtain ⟨trees, -, rfl⟩ := hw.tree_function_ok hterm htree
    rw [describe_of_tree hs.1 htree, Text.not_isQuoted_function]
    simp only [isString, hterm]

section Growth
variable (hw : WellFormed table) (hl : Extends table later) (hs : table.Usable s)
include hw hl hs

theorem describe_extends : later.describe s = table.describe s := by
  obtain ⟨tree, htree⟩ := hw.tree_ok hs.2
  rw [describe_of_tree hs.1 htree, describe_of_tree hs.1 (hw.tree_extends hl htree)]

theorem isString_extends (hw' : WellFormed later) : later.isString s = table.isString s := by
  rw [hw'.isString_eq (hs.extend hl), hw.isString_eq hs, describe_extends hw hl hs]

theorem plainText_extends (hw' : WellFormed later) : later.plainText s = table.plainText s := by
  rw [plainText, plainText, isString_extends hw hl hs hw', describe_extends hw hl hs]

end Growth

theorem WellFormed.stored_of_constant (hw : WellFormed table)
    (h : table.constant t = (s, table)) : table.Stored s (.constant t) := by
  have hstored := @stored_constant table hw t (by rw [h]; exact hw.bounded)
  rwa [h] at hstored

theorem WellFormed.usable_of_constant (hw : WellFormed table)
    (h : table.constant t = (s, table)) : table.Usable s := by
  have hstored := hw.stored_of_constant h
  obtain ⟨id, hr, -⟩ := content?_constant_iff.mp hstored.2
  exact ⟨hstored.1, isKnown_iff.mpr ⟨_, hr⟩⟩

theorem WellFormed.describe_of_constant (hw : WellFormed table)
    (h : table.constant t = (s, table)) : table.describe s = t := by
  have hstored := hw.stored_of_constant h
  rw [describe_of_tree hstored.1 (tree_of_constant hstored.2), Tree.text]

theorem WellFormed.isString_of_constant (hw : WellFormed table)
    (h : table.constant t = (s, table)) : table.isString s = Text.isQuoted t := by
  rw [hw.isString_eq (hw.usable_of_constant h), hw.describe_of_constant h]

theorem WellFormed.integer?_of_integer (hw : WellFormed table) {value : Int64}
    (h : table.integer value = (s, table)) : table.Usable s ∧ table.integer? s = some value := by
  have hstored := @stored_integer table hw value (by rw [h]; exact hw.bounded)
  rw [h] at hstored
  obtain ⟨-, -, hvalue, -⟩ := hstored.readsAs
  exact ⟨⟨hstored.1, isKnown_iff.mpr ⟨_, integer?_eq_some_iff.mp hvalue⟩⟩, hvalue⟩

theorem WellFormed.plainText_of_string (hw : WellFormed table)
    (h : table.string t = (s, table)) : table.isString s = true ∧ table.plainText s = t := by
  have hstring : table.isString s = true := by
    rw [hw.isString_of_constant h, Text.isQuoted_quote]
  exact ⟨hstring, by rw [plainText, if_pos hstring, hw.describe_of_constant h, Text.unquote_quote]⟩

end SymbolTable

namespace Bundled
variable {table : SymbolTable} {s : Symbol}

/-- Reading an operand gives its text and says whether it is a string. -/
theorem operand_eq_ok (hw : WellFormed table) (hs : table.Usable s) :
    operand table s = .ok ⟨table.plainText s, table.isString s⟩ := by
  obtain ⟨tree, htree⟩ := hw.tree_ok hs.2
  have hrender : table.render s = .ok (table.describe s) := by
    rw [describe_of_tree hs.1 htree, render_of_tree htree]
    simp [hs.1]
  rw [operand, hrender, plainText, hw.isString_eq hs, Except.map, Operand.ofText]
  split <;> simp [*]

end Bundled

end ExternalAtoms
