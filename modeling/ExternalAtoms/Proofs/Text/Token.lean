import ExternalAtoms.Symbol.Tree
import ExternalAtoms.Text.Identifier
import ExternalAtoms.Text.Quoted
import Mathlib.Data.List.TakeWhile
import Std.Data.String.ToNat

/-! # Tokens and where they end

Identifiers, integers and quoted strings are the tokens of the written form of a symbol. In a longer
text each of them can be told from what follows it: the first two end where the first character
outside of their class stands, and a string ends at the first quote without a backslash.
-/
namespace ExternalAtoms.Text
variable {p : Char → Bool} {cs cs' r r' : List Char} {c : Char}

/-- The list is empty or starts with a character outside of the class. -/
def StopsAt (p : Char → Bool) (r : List Char) : Prop := ∀ c ∈ r.head?, p c = false

theorem stopsAt_cons (h : p c = false) : StopsAt p (c :: r) := by simpa [StopsAt] using h

theorem takeWhile_append_of_stopsAt (hcs : ∀ c ∈ cs, p c = true) (hr : StopsAt p r) :
    (cs ++ r).takeWhile p = cs := by
  rw [List.takeWhile_append_of_pos hcs]
  cases r with
  | nil => simp
  | cons c rest => simp [hr c rfl]

/-- Characters of a class can be told from a rest that starts outside of it. -/
theorem append_injective_of_stopsAt (hcs : ∀ c ∈ cs, p c = true) (hcs' : ∀ c ∈ cs', p c = true)
    (hr : StopsAt p r) (hr' : StopsAt p r') (h : cs ++ r = cs' ++ r') : cs = cs' ∧ r = r' := by
  have hsame : cs = cs' := by
    have htake := congrArg (List.takeWhile p) h
    rwa [takeWhile_append_of_stopsAt hcs hr, takeWhile_append_of_stopsAt hcs' hr'] at htake
  subst hsame
  exact ⟨rfl, List.append_cancel_left h⟩

section Identifier
variable {name name' : String}

def isIdentifierStart (c : Char) : Bool := c == '_' || c.isLower

theorem isLower_iff : c.isLower = true ↔ 'a' ≤ c ∧ c ≤ 'z' := by
  change (decide ('a' ≤ c) && decide (c ≤ 'z')) = true ↔ _
  rw [Bool.and_eq_true, decide_eq_true_eq, decide_eq_true_eq]

theorem isAlpha_iff : c.isAlpha = true ↔ ('A' ≤ c ∧ c ≤ 'Z') ∨ 'a' ≤ c ∧ c ≤ 'z' := by
  change (decide ('A' ≤ c ∧ c ≤ 'Z') || c.isLower) = true ↔ _
  rw [Bool.or_eq_true, decide_eq_true_eq, isLower_iff]

theorem isIdentifierChar_of_isLower (h : c.isLower = true) : isIdentifierChar c = true := by
  have halpha := isAlpha_iff.mpr (Or.inr (isLower_iff.mp h))
  simp [isIdentifierChar, Char.isAlphanum, halpha]

theorem isIdentifierBody_eq_true (h : isIdentifierBody cs = true) :
    ∃ c rest, cs = c :: rest ∧ c.isLower = true ∧ ∀ d ∈ rest, isIdentifierChar d = true := by
  cases cs with
  | nil => simp [isIdentifierBody] at h
  | cons c rest =>
    rw [isIdentifierBody, Bool.and_eq_true, List.all_eq_true] at h
    exact ⟨c, rest, rfl, h.1, h.2⟩

/-- The characters of an identifier: underscores, a lower-case letter, and identifier characters. -/
theorem toList_of_isIdentifier (h : isIdentifier name = true) :
    ∃ underscores c rest, name.toList = underscores ++ c :: rest ∧
      (∀ d ∈ underscores, d = '_') ∧ c.isLower = true ∧ ∀ d ∈ rest, isIdentifierChar d = true := by
  obtain ⟨c, rest, hbody, hc, hrest⟩ := isIdentifierBody_eq_true h
  refine ⟨name.toList.takeWhile (· == '_'), c, rest, ?_, fun d hd => ?_, hc, hrest⟩
  · rw [← hbody, List.takeWhile_append_dropWhile]
  · simpa using List.mem_takeWhile_imp hd

theorem isIdentifierChar_of_mem (h : isIdentifier name = true) :
    ∀ c ∈ name.toList, isIdentifierChar c = true := by
  obtain ⟨underscores, c, rest, he, hunderscores, hc, hrest⟩ := toList_of_isIdentifier h
  intro d hd
  rw [he, List.mem_append, List.mem_cons] at hd
  rcases hd with hd | rfl | hd
  · rw [hunderscores d hd]
    rfl
  · exact isIdentifierChar_of_isLower hc
  · exact hrest d hd

theorem head_of_isIdentifier (h : isIdentifier name = true) :
    ∃ c rest, name.toList = c :: rest ∧ isIdentifierStart c = true := by
  obtain ⟨underscores, c, rest, he, hunderscores, hc, -⟩ := toList_of_isIdentifier h
  cases underscores with
  | nil => exact ⟨c, rest, he, by simp [isIdentifierStart, hc]⟩
  | cons d more => exact ⟨d, more ++ c :: rest, he, by simp [isIdentifierStart, hunderscores]⟩

theorem identifier_append_injective (h : isIdentifier name = true) (h' : isIdentifier name' = true)
    (hr : StopsAt isIdentifierChar r) (hr' : StopsAt isIdentifierChar r')
    (he : name.toList ++ r = name'.toList ++ r') : name = name' ∧ r = r' := by
  obtain ⟨hname, hrest⟩ := append_injective_of_stopsAt (isIdentifierChar_of_mem h)
    (isIdentifierChar_of_mem h') hr hr' he
  exact ⟨String.toList_inj.mp hname, hrest⟩

end Identifier

section Quoted
variable {d : Char} {body body' : List Char}

theorem escapeQuoted_append_ne : escapeQuoted c ++ r ≠ '"' :: r' := by
  unfold escapeQuoted
  split
  · simp
  · split
    · simp
    · split
      · simp
      · simp_all

theorem escapeQuoted_append_injective (h : escapeQuoted c ++ r = escapeQuoted d ++ r') :
    c = d ∧ r = r' := by
  unfold escapeQuoted at h
  grind

theorem encodeQuoted_append_injective (h : encodeQuoted body ++ r = encodeQuoted body' ++ r') :
    body = body' ∧ r = r' := by
  simp only [encodeQuoted, List.cons_append, List.append_assoc, List.cons.injEq, true_and,
    List.nil_append] at h
  induction body generalizing body' with
  | nil =>
    cases body' with
    | nil => exact ⟨rfl, (List.cons.inj h).2⟩
    | cons d rest =>
      rw [List.flatMap_cons, List.append_assoc] at h
      exact absurd h.symm escapeQuoted_append_ne
  | cons c rest ih =>
    cases body' with
    | nil =>
      rw [List.flatMap_cons, List.append_assoc] at h
      exact absurd h escapeQuoted_append_ne
    | cons d rest' =>
      rw [List.flatMap_cons, List.flatMap_cons, List.append_assoc, List.append_assoc] at h
      obtain ⟨rfl, htail⟩ := escapeQuoted_append_injective h
      obtain ⟨rfl, hrest⟩ := ih htail
      exact ⟨rfl, hrest⟩

end Quoted

section Integer
variable {m n : Nat} {x y : Int}

theorem isDigit_of_mem_repr : ∀ c ∈ (Nat.repr n).toList, c.isDigit = true := by
  intro c hc
  rw [Nat.toList_repr] at hc
  exact Nat.isDigit_of_mem_toDigits (by decide) (by decide) hc

theorem head_repr (n : Nat) : ∃ c rest, (Nat.repr n).toList = c :: rest ∧ c.isDigit = true := by
  cases h : (Nat.repr n).toList with
  | nil => simp [Nat.toList_repr] at h
  | cons c rest => exact ⟨c, rest, rfl, isDigit_of_mem_repr c (h ▸ List.mem_cons_self)⟩

theorem repr_append_injective (hr : StopsAt Char.isDigit r) (hr' : StopsAt Char.isDigit r')
    (h : (Nat.repr m).toList ++ r = (Nat.repr n).toList ++ r') : m = n ∧ r = r' := by
  obtain ⟨hrepr, hrest⟩ :=
    append_injective_of_stopsAt isDigit_of_mem_repr isDigit_of_mem_repr hr hr' h
  exact ⟨Nat.repr_injective (String.toList_inj.mp hrepr), hrest⟩

theorem repr_append_ne_minus : (Nat.repr n).toList ++ r ≠ '-' :: r' := by
  obtain ⟨c, rest, he, hc⟩ := head_repr n
  rw [he, List.cons_append]
  intro h
  rw [(List.cons.inj h).1] at hc
  exact absurd hc (by decide)

theorem toList_integerText (x : Int) : (Tree.integerText x).toList =
    if x < 0 then '-' :: (Nat.repr x.natAbs).toList else (Nat.repr x.natAbs).toList := by
  unfold Tree.integerText
  split
  · rw [String.toList_append]
    rfl
  · rfl

theorem integerText_append_injective (hr : StopsAt Char.isDigit r) (hr' : StopsAt Char.isDigit r')
    (h : (Tree.integerText x).toList ++ r = (Tree.integerText y).toList ++ r') :
    x = y ∧ r = r' := by
  rw [toList_integerText, toList_integerText] at h
  split at h
  · next hx =>
    split at h
    · next hy =>
      obtain ⟨habs, hrest⟩ := repr_append_injective hr hr' (List.cons.inj h).2
      exact ⟨by omega, hrest⟩
    · exact absurd h.symm repr_append_ne_minus
  · next hx =>
    split at h
    · exact absurd h repr_append_ne_minus
    · next hy =>
      obtain ⟨habs, hrest⟩ := repr_append_injective hr hr' h
      exact ⟨by omega, hrest⟩

end Integer

inductive Token where
  | identifier (name : String)
  | quoted (text : String)
  | integer (value : Int)

namespace Token
variable {k k' : Token}

def chars : Token → List Char
  | identifier name => name.toList
  | quoted text => encodeQuoted text.toList
  | integer value => (Tree.integerText value).toList

def Valid : Token → Prop
  | identifier name => isIdentifier name = true
  | quoted _ | integer _ => True

inductive Kind where
  | identifier
  | quoted
  | integer

def kind : Token → Kind
  | identifier _ => .identifier
  | quoted _ => .quoted
  | integer _ => .integer

/-- The kind of the tokens that start with this character. -/
def kindOf (c : Char) : Kind :=
  if c = '"' then .quoted else if c = '-' ∨ c.isDigit = true then .integer else .identifier

theorem kindOf_of_isIdentifierStart (h : isIdentifierStart c = true) : kindOf c = .identifier := by
  rw [isIdentifierStart, Bool.or_eq_true, beq_iff_eq] at h
  rcases h with rfl | h
  · rfl
  · obtain ⟨hlow, -⟩ := isLower_iff.mp h
    have hquote : c ≠ '"' := by rintro rfl; exact absurd hlow (by decide)
    have hminus : c ≠ '-' := by rintro rfl; exact absurd hlow (by decide)
    have hdigit : ¬c.isDigit = true := by
      simp only [Char.isDigit, Bool.and_eq_true, decide_eq_true_eq]
      exact fun hd => absurd (UInt32.le_trans (Char.le_def.mp hlow) hd.2) (by decide)
    simp [kindOf, hquote, hminus, hdigit]

theorem kindOf_of_isDigit (h : c.isDigit = true) : kindOf c = .integer := by
  have hquote : c ≠ '"' := by rintro rfl; exact absurd h (by decide)
  simp [kindOf, hquote, h]

theorem kindOf_head (h : k.Valid) : ∃ c rest, k.chars = c :: rest ∧ kindOf c = k.kind := by
  cases k with
  | identifier name =>
    obtain ⟨c, rest, he, hc⟩ := head_of_isIdentifier h
    exact ⟨c, rest, he, kindOf_of_isIdentifierStart hc⟩
  | quoted text => exact ⟨'"', _, rfl, rfl⟩
  | integer value =>
    simp only [chars, toList_integerText]
    split
    · exact ⟨'-', _, rfl, rfl⟩
    · obtain ⟨c, rest, he, hc⟩ := head_repr value.natAbs
      exact ⟨c, rest, he, kindOf_of_isDigit hc⟩

/-- A token that starts with a minus sign has a digit next. -/
theorem isDigit_of_minus (hk : k.Valid) (h : k.chars ++ r = '-' :: c :: r') :
    c.isDigit = true := by
  obtain ⟨d, rest, he, hkind⟩ := kindOf_head hk
  rw [he, List.cons_append] at h
  obtain ⟨rfl, -⟩ := List.cons.inj h
  cases k with
  | identifier name => cases hkind
  | quoted text => cases hkind
  | integer value =>
    rw [← List.cons_append, ← he, chars, toList_integerText] at h
    split at h
    · obtain ⟨e, more, hrepr, hdigit⟩ := head_repr value.natAbs
      rw [hrepr, List.cons_append, List.cons_append] at h
      obtain ⟨rfl, -⟩ := List.cons.inj (List.cons.inj h).2
      exact hdigit
    · exact absurd h repr_append_ne_minus

theorem isDigit_stops (h : StopsAt isIdentifierChar r) : StopsAt Char.isDigit r := by
  intro c hc
  have hstop := h c hc
  rw [← Bool.not_eq_true] at hstop ⊢
  intro hdigit
  exact hstop (by simp [isIdentifierChar, Char.isAlphanum, hdigit])

/-- A token can be told from what follows it. -/
theorem append_injective (hk : k.Valid) (hk' : k'.Valid) (hr : StopsAt isIdentifierChar r)
    (hr' : StopsAt isIdentifierChar r') (h : k.chars ++ r = k'.chars ++ r') :
    k = k' ∧ r = r' := by
  -- the first character settles the kind, and each kind has its own way to end
  have hkind : k.kind = k'.kind := by
    obtain ⟨c, rest, he, hc⟩ := kindOf_head hk
    obtain ⟨c', rest', he', hc'⟩ := kindOf_head hk'
    rw [he, he'] at h
    rw [← hc, ← hc', (List.cons.inj h).1]
  cases k with
  | identifier name =>
    cases k' with
    | identifier name' =>
      obtain ⟨rfl, hrest⟩ := identifier_append_injective hk hk' hr hr' h
      exact ⟨rfl, hrest⟩
    | quoted text => cases hkind
    | integer value => cases hkind
  | quoted text =>
    cases k' with
    | identifier name => cases hkind
    | quoted text' =>
      obtain ⟨htext, hrest⟩ := encodeQuoted_append_injective h
      exact ⟨congrArg quoted (String.toList_inj.mp htext), hrest⟩
    | integer value => cases hkind
  | integer value =>
    cases k' with
    | identifier name => cases hkind
    | quoted text => cases hkind
    | integer value' =>
      obtain ⟨rfl, hrest⟩ := integerText_append_injective (isDigit_stops hr) (isDigit_stops hr') h
      exact ⟨rfl, hrest⟩

end Token

end ExternalAtoms.Text
