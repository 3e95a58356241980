import ExternalAtoms.Proofs.Symbol.Content
import ExternalAtoms.Proofs.Symbol.Denotation
import ExternalAtoms.Proofs.Symbol.Head
import ExternalAtoms.Proofs.Text.Token

/-! # Rendered symbols can be told apart

The text of an ordinary tree starts with a token and goes on with an argument list if it is a
function. It determines the tree and, in a longer text, its own end, whatever the tokens contain and
however deep the arguments are nested. Handles have different trees, so ordinary symbols of one
table have different texts.
-/
namespace ExternalAtoms
open Text

namespace Tree
variable {a b : Tree} {r r' : List Char}

/-- Identifiers, strings and integers, and identifiers applied to such trees. -/
inductive Ordinary : Tree → Prop
  | constant {name : String} (hname : isIdentifier name = true) : Ordinary (.constant name)
  | string (text : String) : Ordinary (.constant (quote text))
  | integer (value : Int64) : Ordinary (.integer value)
  | function {name : String} {args : List Tree} (hname : isIdentifier name = true)
      (hne : args ≠ []) (hargs : ∀ arg ∈ args, Ordinary arg) : Ordinary (.function name args)

/-- The token that a tree starts with. -/
inductive Opens : Token → Tree → Prop
  | constant (name : String) : Opens (.identifier name) (.constant name)
  | string (text : String) : Opens (.quoted text) (.constant (quote text))
  | integer {value : Int64} {x : Int} (h : value.toInt = x) : Opens (.integer x) (.integer value)
  | function (name : String) (args : List Tree) : Opens (.identifier name) (.function name args)

def tail : Tree → List Char
  | constant _ | integer _ => []
  | function _ args => '(' :: ((argumentsText args).toList ++ [')'])

theorem toList_text_function (name : String) (args : List Tree) :
    (function name args).text.toList = name.toList ++ (function name args).tail := by
  simp [text, tail]

theorem Ordinary.opens (h : a.Ordinary) :
    ∃ k : Token, k.Valid ∧ a.Opens k ∧ a.text.toList = k.chars ++ a.tail := by
  cases h with
  | @constant name hname =>
    exact ⟨.identifier name, hname, .constant name, by simp [text, tail, Token.chars]⟩
  | string body =>
    exact ⟨.quoted body, trivial, .string body, by simp [text, tail, Token.chars, quote]⟩
  | integer value =>
    exact ⟨.integer value.toInt, trivial, .integer rfl, by simp [text, tail, Token.chars]⟩
  | @function name args hname =>
    exact ⟨.identifier name, hname, .function name args, toList_text_function name args⟩

/-- What may follow the text of an argument: nothing, a comma or a closing parenthesis. -/
def Delimited (r : List Char) : Prop := ∀ c ∈ r.head?, c = ',' ∨ c = ')'

theorem Delimited.stops (h : Delimited r) : StopsAt isIdentifierChar r := by
  intro c hc
  rcases h c hc with rfl | rfl <;> rfl

theorem stops_tail (h : Delimited r) : StopsAt isIdentifierChar (a.tail ++ r) := by
  cases a with
  | constant name => exact h.stops
  | integer value => exact h.stops
  | function name args => exact stopsAt_cons rfl

theorem ne_tail_function {name : String} {args : List Tree} (h : Delimited r) :
    r ≠ (function name args).tail ++ r' := by
  rintro rfl
  rcases h '(' rfl with h | h <;> exact absurd h (by decide)

/-- The text of the tree can be told from what follows it, among those of ordinary trees. -/
def Separable (a : Tree) : Prop :=
  ∀ {b : Tree} {r r' : List Char}, b.Ordinary → Delimited r → Delimited r' →
    a.text.toList ++ r = b.text.toList ++ r' → a = b ∧ r = r'

theorem toList_argumentsText_cons (arg : Tree) (rest : List Tree) :
    (argumentsText (arg :: rest)).toList =
      arg.text.toList ++ if rest = [] then [] else ',' :: (argumentsText rest).toList := by
  cases rest with
  | nil => simp [argumentsText]
  | cons other more => simp [argumentsText]

theorem arguments_append_injective {args args' : List Tree} (hargs : ∀ arg ∈ args, arg.Separable)
    (hargs' : ∀ arg ∈ args', arg.Ordinary) (hne : args ≠ []) (hne' : args' ≠ [])
    (h : (argumentsText args).toList ++ ')' :: r = (argumentsText args').toList ++ ')' :: r') :
    args = args' ∧ r = r' := by
  induction args generalizing args' with
  | nil => exact absurd rfl hne
  | cons arg rest ih =>
    obtain ⟨arg', rest', rfl⟩ := List.exists_cons_of_ne_nil hne'
    have hfollow : ∀ (rest : List Tree) (r : List Char),
        Delimited ((if rest = [] then [] else ',' :: (argumentsText rest).toList) ++ ')' :: r) := by
      intro rest r
      split <;> simp [Delimited]
    rw [toList_argumentsText_cons, toList_argumentsText_cons, List.append_assoc,
      List.append_assoc] at h
    obtain ⟨rfl, hrest⟩ := hargs arg List.mem_cons_self (hargs' arg' List.mem_cons_self)
      (hfollow _ _) (hfollow _ _) h
    by_cases hlast : rest = []
    · by_cases hlast' : rest' = []
      · subst hlast hlast'
        exact ⟨rfl, by simpa using hrest⟩
      · simp [hlast, hlast'] at hrest
    · by_cases hlast' : rest' = []
      · simp [hlast, hlast'] at hrest
      · simp only [hlast, hlast', if_false, List.cons_append, List.cons.injEq, true_and] at hrest
        obtain ⟨rfl, hr⟩ := ih (fun arg harg => hargs arg (List.mem_cons_of_mem _ harg))
          (fun arg harg => hargs' arg (List.mem_cons_of_mem _ harg)) hlast hlast' hrest
        exact ⟨rfl, hr⟩

theorem Ordinary.separable_of_arguments (ha : a.Ordinary)
    (hargs : ∀ name args, a = .function name args → args ≠ [] ∧ ∀ arg ∈ args, arg.Separable) :
    a.Separable := by
  intro b r r' hb hr hr' h
  obtain ⟨k, hk, hopens, htext⟩ := ha.opens
  obtain ⟨k', hk', hopens', htext'⟩ := hb.opens
  rw [htext, htext', List.append_assoc, List.append_assoc] at h
  -- both texts start with the same token, and a function goes on differently from a constant
  obtain ⟨rfl, htail⟩ := Token.append_injective hk hk' (stops_tail hr) (stops_tail hr') h
  cases hopens with
  | string body =>
    cases hopens'
    exact ⟨rfl, htail⟩
  | integer hvalue =>
    cases hopens' with
    | integer hvalue' =>
      obtain rfl := Int64.toInt_inj.mp (hvalue.trans hvalue'.symm)
      exact ⟨rfl, htail⟩
  | constant name =>
    cases hopens' with
    | constant => exact ⟨rfl, htail⟩
    | function _ args => exact absurd htail (ne_tail_function hr)
  | function name args =>
    obtain ⟨hne, hsep⟩ := hargs name args rfl
    cases hopens' with
    | constant => exact absurd htail.symm (ne_tail_function hr')
    | function _ args' =>
      cases hb with
      | function hname hne' hordinary =>
        simp only [tail, List.cons_append, List.append_assoc, List.nil_append,
          List.cons.injEq, true_and] at htail
        obtain ⟨rfl, hrest⟩ := arguments_append_injective hsep hordinary hne hne' htail
        exact ⟨rfl, hrest⟩

/-- The text of an ordinary tree determines the tree and its own end in a longer text. -/
theorem Ordinary.separable (h : a.Ordinary) : a.Separable := by
  induction h with
  | constant hname => exact (Ordinary.constant hname).separable_of_arguments (by simp)
  | string text => exact (Ordinary.string text).separable_of_arguments (by simp)
  | integer value => exact (Ordinary.integer value).separable_of_arguments (by simp)
  | function hname hne hargs ih =>
    refine (Ordinary.function hname hne hargs).separable_of_arguments ?_
    rintro name args ⟨⟩
    exact ⟨hne, ih⟩

theorem Ordinary.eq_of_text (ha : a.Ordinary) (hb : b.Ordinary) (h : a.text = b.text) : a = b := by
  have hend : Delimited [] := by simp [Delimited]
  refine (ha.separable hb hend hend ?_).1
  rw [h]

def Named : Tree → Prop
  | constant name | function name _ => isIdentifier name = true
  | integer _ => False

theorem Named.head_text (h : a.Named) :
    ∃ c rest, a.text.toList = c :: rest ∧ isIdentifierStart c = true := by
  cases a with
  | constant name => exact head_of_isIdentifier h
  | integer value => exact h.elim
  | function name args =>
    obtain ⟨c, rest, he, hc⟩ := head_of_isIdentifier h
    exact ⟨c, rest ++ (function name args).tail, by rw [toList_text_function, he]; rfl, hc⟩

/-- After a minus sign an ordinary tree has a digit, and an atom has none. -/
theorem Ordinary.text_ne_minus (ha : a.Ordinary) (hb : b.Named) : a.text ≠ "-" ++ b.text := by
  intro h
  obtain ⟨c, rest, he, hc⟩ := hb.head_text
  obtain ⟨k, hk, -, htext⟩ := ha.opens
  have hlist : k.chars ++ a.tail = '-' :: c :: rest := by
    rw [← htext, h, String.toList_append, he]
    rfl
  have hkind := Token.kindOf_of_isDigit (Token.isDigit_of_minus hk hlist)
  rw [Token.kindOf_of_isIdentifierStart hc] at hkind
  cases hkind

end Tree

namespace SymbolTable
variable {table : SymbolTable} {s x y : Symbol}

/-- The ordinary symbols of a table: constants spelled as identifiers, integers, strings, functions
of ordinary symbols with an identifier for a name, and negations of ordinary atoms. -/
inductive Ordinary (table : SymbolTable) : Symbol → Prop
  | constant {s : Symbol} {name : String} (hs : table.Stored s (.constant name))
      (hname : isIdentifier name = true) : Ordinary table s
  | integer {s : Symbol} {value : Int64} (hs : table.Stored s (.integer value)) :
      Ordinary table s
  | string {s : Symbol} {text : String} (hs : table.Stored s (.constant (quote text))) :
      Ordinary table s
  | function {s : Symbol} {name : String} {args : List Symbol}
      (hs : table.Stored s (.function name args)) (hname : isIdentifier name = true)
      (hne : args ≠ []) (hargs : ∀ arg ∈ args, Ordinary table arg) : Ordinary table s
  | negation {s : Symbol} (hs : Ordinary table s) (hatom : (table.isAtom s).1 = true) :
      Ordinary table s.flip

theorem tree_flip (table : SymbolTable) (s : Symbol) : table.tree s.flip = table.tree s := by
  simp [tree, treeWithin, resolve?]

theorem render_of_tree {a : Tree} (h : table.tree s = .ok a) :
    table.render s = .ok ((if s.isNegated then "-" else "") ++ a.text) := by
  rw [render, h]
  rfl

theorem tree_of_constant {name : String} (hs : table.content? s = some (.constant name)) :
    table.tree s = .ok (.constant name) := by
  obtain ⟨id, ht, hid⟩ := content?_constant_iff.mp hs
  rw [tree_constant ht, nameText_of_resolve? hid]

theorem tree_of_integer {value : Int64} (hs : table.content? s = some (.integer value)) :
    table.tree s = .ok (.integer value) := by
  obtain ⟨t, ht, hc⟩ := content?_eq_some_iff.mp hs
  cases t with
  | constant id => simp [Term.content?] at hc
  | function id args => simp [Term.content?] at hc
  | integer value' =>
    obtain rfl := Content.integer.inj (Option.some.inj hc)
    exact tree_integer ht

namespace WellFormed
variable (h : WellFormed table)
include h

theorem tree_of_function {name : String} {args : List Symbol} {trees : List Tree}
    (hs : table.content? s = some (.function name args))
    (hargs : args.mapM table.tree = .ok trees) : table.tree s = .ok (.function name trees) := by
  obtain ⟨id, ht, hid⟩ := content?_function_iff.mp hs
  rw [h.tree_function ht, hargs, nameText_of_resolve? hid]
  rfl

theorem named_of_isAtom (ha : (table.isAtom s).1 = true) {a : Tree} (hs : table.tree s = .ok a) :
    a.Named := by
  obtain ⟨name, t, ht, hnamed, hname⟩ := isAtom_iff.mp ha
  obtain ⟨text, hid, hidentifier⟩ := isPredicateName_iff.mp hname
  cases t with
  | integer value => exact hnamed.elim
  | constant id =>
    obtain rfl : id = name := hnamed
    obtain rfl := Except.ok.inj ((tree_constant ht).symm.trans hs)
    rwa [Tree.Named, nameText_of_resolve? hid]
  | function id args =>
    obtain rfl : id = name := hnamed
    obtain ⟨trees, -, rfl⟩ := h.tree_function_ok ht hs
    rwa [Tree.Named, nameText_of_resolve? hid]

theorem tree_of_ordinary (hs : Ordinary table s) :
    ∃ a, table.tree s = .ok a ∧ a.Ordinary ∧ (s.isNegated = true → a.Named) := by
  induction hs with
  | constant hs hname =>
    exact ⟨_, tree_of_constant hs.2, .constant hname, by simp [hs.1]⟩
  | integer hs => exact ⟨_, tree_of_integer hs.2, .integer _, by simp [hs.1]⟩
  | string hs => exact ⟨_, tree_of_constant hs.2, .string _, by simp [hs.1]⟩
  | function hs hname hne _ ih =>
    obtain ⟨trees, htrees⟩ := mapM_ok_of_forall fun arg harg =>
      (ih arg harg).imp fun _ ha => ha.1
    refine ⟨_, h.tree_of_function hs.2 htrees, .function hname ?_ fun tree htree => ?_,
      by simp [hs.1]⟩
    · rintro rfl
      exact hne (List.forall₂_nil_right_iff.mp (mapM_eq_ok_iff.mp htrees))
    · obtain ⟨arg, harg, hok⟩ := exists_of_mem_mapM htrees htree
      obtain ⟨a, ha, hordinary, -⟩ := ih arg harg
      rwa [← Except.ok.inj (ha.symm.trans hok)]
  | @negation s hs hatom ih =>
    obtain ⟨a, ha, hordinary, -⟩ := ih
    exact ⟨a, (table.tree_flip s).trans ha, hordinary, fun _ => h.named_of_isAtom hatom ha⟩

end WellFormed

/-- Ordinary symbols are rendered, and to the same text only if they are the same symbol. -/
theorem render_injective_of_ordinary (hr : Reaches .empty table) (hb : table.size ≤ 2 ^ 31)
    (hx : Ordinary table x) (hy : Ordinary table y) :
    ∃ text text', table.render x = .ok text ∧ table.render y = .ok text' ∧
      (text = text' ↔ x = y) := by
  have h := hr.wellFormed hb
  obtain ⟨a, ha, hoa, hna⟩ := h.tree_of_ordinary hx
  obtain ⟨b, hb, hob, hnb⟩ := h.tree_of_ordinary hy
  refine ⟨_, _, render_of_tree ha, render_of_tree hb, fun he => ?_, ?_⟩
  · -- equal signs leave equal trees, and the minus sign of a negated atom is never that of a number
    cases hsx : x.isNegated with
    | false =>
      cases hsy : y.isNegated with
      | false =>
        simp only [hsx, hsy, Bool.false_eq_true, if_false, String.empty_append] at he
        obtain rfl := hoa.eq_of_text hob he
        exact h.eq_of_tree hsx hsy ha hb
      | true =>
        simp only [hsx, hsy, Bool.false_eq_true, if_false, if_true, String.empty_append] at he
        exact absurd he (hoa.text_ne_minus (hnb hsy))
    | true =>
      cases hsy : y.isNegated with
      | false =>
        simp only [hsx, hsy, Bool.false_eq_true, if_false, if_true, String.empty_append] at he
        exact absurd he.symm (hob.text_ne_minus (hna hsx))
      | true =>
        simp only [hsx, hsy, if_true] at he
        obtain rfl := hoa.eq_of_text hob ((String.append_right_inj _).mp he)
        have hflip : x.flip = y.flip := h.eq_of_tree (by simp [hsx]) (by simp [hsy])
          ((table.tree_flip x).trans ha) ((table.tree_flip y).trans hb)
        rw [← x.flip_flip, hflip, y.flip_flip]
  · rintro rfl
    rw [Except.ok.inj (ha.symm.trans hb)]

/-- A string that ends like an argument list, a negative integer, and an atom of both, negated. -/
def quotedAtom : SymbolTable :=
  empty.runAll [.string "\",-7)", .integer (-7), .function "p" [⟨0⟩, ⟨2⟩], .negate ⟨4⟩]

theorem quotedAtom_ordinary : Ordinary quotedAtom ⟨4⟩ := by
  have hstring : quotedAtom.Stored ⟨0⟩ (.constant (quote "\",-7)")) := ⟨by rfl, by rfl⟩
  have happlied : quotedAtom.Stored ⟨4⟩ (.function "p" [⟨0⟩, ⟨2⟩]) := ⟨by rfl, by rfl⟩
  refine .function happlied (by decide) (by decide) fun arg harg => ?_
  rcases List.mem_pair.mp harg with rfl | rfl
  · exact .string hstring
  · exact .integer ⟨by rfl, by rfl⟩

theorem render_injective_of_ordinary_quotedAtom :
    Reaches .empty quotedAtom ∧ quotedAtom.size ≤ 2 ^ 31 ∧ Ordinary quotedAtom ⟨5⟩ ∧
      Ordinary quotedAtom ⟨2⟩ ∧
      ∃ text text', quotedAtom.render ⟨5⟩ = .ok text ∧ quotedAtom.render ⟨2⟩ = .ok text' ∧
        text ≠ text' := by
  have hr : Reaches .empty quotedAtom := runAll_reaches _ _
  have hb : quotedAtom.size ≤ 2 ^ 31 := by decide
  have hatom : Ordinary quotedAtom ⟨5⟩ := .negation quotedAtom_ordinary (by rfl)
  have hinteger : Ordinary quotedAtom ⟨2⟩ := .integer ⟨by rfl, by rfl⟩
  obtain ⟨text, text', ht, ht', hne⟩ := render_injective_of_ordinary hr hb hatom hinteger
  exact ⟨hr, hb, hatom, hinteger, text, text', ht, ht',
    fun he => absurd (hne.mp he) (by decide)⟩

end SymbolTable

end ExternalAtoms
