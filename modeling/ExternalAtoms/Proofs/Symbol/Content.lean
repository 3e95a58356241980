import ExternalAtoms.Proofs.Symbol.WellFormed

/-! # What is stored under a handle

The content of a handle is one layer of what it denotes, with names as texts and arguments as
handles. A request that hands out a handle stores its content there; the readers of the table give
the content back, in this table and in every later one, and no other positive handle has it.
-/
namespace ExternalAtoms

inductive Content where
  | constant (text : String)
  | integer (value : Int64)
  | function (name : String) (args : List Symbol)

/-- A name applied to no arguments is a constant. -/
def Content.application (name : String) : List Symbol → Content
  | [] => .constant name
  | arg :: rest => .function name (arg :: rest)

theorem Content.application_injective {name name' : String} {args args' : List Symbol}
    (h : application name args = application name' args') : name = name' ∧ args = args' := by
  cases args with
  | nil =>
    cases args' with
    | nil => exact ⟨Content.constant.inj h, rfl⟩
    | cons arg rest => cases h
  | cons arg rest =>
    cases args' with
    | nil => cases h
    | cons arg' rest' => exact Content.function.inj h

namespace Term

def content? (names : NameTable) : Term → Option Content
  | .constant name => (names.resolve? name).map .constant
  | .integer value => some (.integer value)
  | .function name args => (names.resolve? name).map (.function · args)

theorem content?_injective {names : NameTable} {t u : Term} {c : Content}
    (ht : t.content? names = some c) (hu : u.content? names = some c) : t = u := by
  cases t <;> cases u
  case constant.constant m n =>
    obtain ⟨text, hm, rfl⟩ := Option.map_eq_some_iff.mp ht
    obtain ⟨text', hn, he⟩ := Option.map_eq_some_iff.mp hu
    obtain rfl := Content.constant.inj he
    rw [NameTable.resolve?_injective hm hn]
  case integer.integer m n =>
    have he := Content.integer.inj (Option.some.inj (ht.trans hu.symm))
    rw [he]
  case function.function m args n args' =>
    obtain ⟨text, hm, rfl⟩ := Option.map_eq_some_iff.mp ht
    obtain ⟨text', hn, he⟩ := Option.map_eq_some_iff.mp hu
    obtain ⟨rfl, rfl⟩ := Content.function.inj he
    rw [NameTable.resolve?_injective hm hn]
  all_goals
    simp only [content?, Option.map_eq_some_iff, Option.some.injEq] at ht hu
    grind

end Term

namespace SymbolTable
variable {table later : SymbolTable}

def content? (table : SymbolTable) (s : Symbol) : Option Content :=
  (table.resolve? s).bind (Term.content? table.names)

/-- The handle is positive and has this content. -/
def Stored (table : SymbolTable) (s : Symbol) (c : Content) : Prop :=
  s.isNegated = false ∧ table.content? s = some c

/-- The readers of the table give this content for the handle. -/
def ReadsAs (table : SymbolTable) (s : Symbol) : Content → Prop
  | .constant text => table.kind? s = some .constant ∧ table.name? s = some text ∧
      table.integer? s = none ∧ table.arguments s = []
  | .integer value => table.kind? s = some .integer ∧ table.name? s = none ∧
      table.integer? s = some value ∧ table.arguments s = []
  | .function name args => table.kind? s = some .function ∧ table.name? s = some name ∧
      table.integer? s = none ∧ table.arguments s = args

theorem content?_eq_some_iff {s : Symbol} {c : Content} :
    table.content? s = some c ↔ ∃ t, table.resolve? s = some t ∧ t.content? table.names = some c :=
  Option.bind_eq_some_iff

theorem content?_constant_iff {s : Symbol} {text : String} :
    table.content? s = some (.constant text) ↔
      ∃ id, table.resolve? s = some (.constant id) ∧ table.names.resolve? id = some text := by
  rw [content?_eq_some_iff]
  constructor
  · rintro ⟨t, hr, hc⟩
    cases t with
    | integer value => simp [Term.content?] at hc
    | function id args => simp [Term.content?] at hc
    | constant id =>
      obtain ⟨text', hid, he⟩ := Option.map_eq_some_iff.mp hc
      obtain rfl := Content.constant.inj he
      exact ⟨id, hr, hid⟩
  · rintro ⟨id, hr, hid⟩
    exact ⟨_, hr, Option.map_eq_some_iff.mpr ⟨text, hid, rfl⟩⟩

theorem content?_function_iff {s : Symbol} {name : String} {args : List Symbol} :
    table.content? s = some (.function name args) ↔
      ∃ id, table.resolve? s = some (.function id args) ∧ table.names.resolve? id = some name := by
  rw [content?_eq_some_iff]
  constructor
  · rintro ⟨t, hr, hc⟩
    cases t with
    | integer value => simp [Term.content?] at hc
    | constant id => simp [Term.content?] at hc
    | function id args' =>
      obtain ⟨name', hid, he⟩ := Option.map_eq_some_iff.mp hc
      obtain ⟨rfl, rfl⟩ := Content.function.inj he
      exact ⟨id, hr, hid⟩
  · rintro ⟨id, hr, hid⟩
    exact ⟨_, hr, Option.map_eq_some_iff.mpr ⟨name, hid, rfl⟩⟩

theorem Extends.content?_term (h : Extends table later) {t : Term} {c : Content}
    (hc : t.content? table.names = some c) : t.content? later.names = some c := by
  cases t with
  | integer value => exact hc
  | constant name =>
    obtain ⟨text, hn, rfl⟩ := Option.map_eq_some_iff.mp hc
    exact Option.map_eq_some_iff.mpr ⟨text, h.name hn, rfl⟩
  | function name args =>
    obtain ⟨text, hn, rfl⟩ := Option.map_eq_some_iff.mp hc
    exact Option.map_eq_some_iff.mpr ⟨text, h.name hn, rfl⟩

theorem Extends.content (h : Extends table later) {s : Symbol} {c : Content}
    (hc : table.content? s = some c) : later.content? s = some c := by
  obtain ⟨t, ht, hc⟩ := content?_eq_some_iff.mp hc
  exact content?_eq_some_iff.mpr ⟨t, h.resolve ht, h.content?_term hc⟩

theorem Extends.stored (h : Extends table later) {s : Symbol} {c : Content}
    (hs : table.Stored s c) : later.Stored s c := ⟨hs.1, h.content hs.2⟩

theorem readsAs_of_content? {s : Symbol} {c : Content} (h : table.content? s = some c) :
    table.ReadsAs s c := by
  obtain ⟨t, ht, hc⟩ := content?_eq_some_iff.mp h
  cases t with
  | integer value =>
    obtain rfl := Option.some.inj hc
    simp [ReadsAs, kind?, name?, integer?, arguments, ht, Term.kind]
  | constant name =>
    obtain ⟨text, hn, rfl⟩ := Option.map_eq_some_iff.mp hc
    simp [ReadsAs, kind?, name?, integer?, arguments, ht, Term.kind, hn]
  | function name args =>
    obtain ⟨text, hn, rfl⟩ := Option.map_eq_some_iff.mp hc
    simp [ReadsAs, kind?, name?, integer?, arguments, ht, Term.kind, hn]

theorem Stored.readsAs {s : Symbol} {c : Content} (hs : table.Stored s c) : table.ReadsAs s c :=
  readsAs_of_content? hs.2

/-- Content determines the handle. -/
theorem WellFormed.eq_of_stored (h : WellFormed table) {s u : Symbol} {c : Content}
    (hs : table.Stored s c) (hu : table.Stored u c) : s = u := by
  obtain ⟨t, ht, hc⟩ := content?_eq_some_iff.mp hs.2
  obtain ⟨v, hv, hc'⟩ := content?_eq_some_iff.mp hu.2
  exact h.unique hs.1 hu.1 ht (Term.content?_injective hc hc' ▸ hv)

theorem names_intern (table : SymbolTable) (t : Term) : (table.intern t).2.names = table.names := by
  unfold intern
  split <;> rfl

/-- The look-up finds this handle for the content. -/
def Finds (table : SymbolTable) (s : Symbol) (c : Content) : Prop :=
  ∃ t : Term, t.content? table.names = some c ∧ table.handles[t]? = some s

namespace Finds
variable {s u : Symbol} {c : Content}

theorem unique (h : table.Finds s c) (h' : table.Finds u c) : s = u := by
  obtain ⟨t, ht, hs⟩ := h
  obtain ⟨v, hv, hu⟩ := h'
  rw [Term.content?_injective ht hv] at hs
  exact Option.some.inj (hs.symm.trans hu)

theorem extend (h : table.Finds s c) (hg : Grows table later) : later.Finds s c := by
  obtain ⟨t, ht, hs⟩ := h
  exact ⟨t, hg.toExtends.content?_term ht, hg.handles hs⟩

theorem intern {t : Term} (hc : t.content? table.names = some c) :
    (table.intern t).2.Finds (table.intern t).1 c :=
  ⟨t, by rwa [names_intern], table.handles_intern t⟩

theorem constant (table : SymbolTable) (text : String) :
    (table.constant text).2.Finds (table.constant text).1 (.constant text) :=
  Finds.intern (Option.map_eq_some_iff.mpr ⟨text, NameTable.resolve?_intern _ _, rfl⟩)

theorem apply {name : NameId} {text : String} {args : List Symbol}
    (hn : table.names.resolve? name = some text) (hs : (table.apply name args).1 = .ok s) :
    (table.apply name args).2.Finds s (.application text args) := by
  cases args with
  | nil =>
    obtain rfl := Except.ok.inj hs
    exact Finds.intern (Option.map_eq_some_iff.mpr ⟨text, hn, rfl⟩)
  | cons arg rest =>
    unfold SymbolTable.apply at hs ⊢
    simp only [List.isEmpty_cons, Bool.false_eq_true, if_false] at hs ⊢
    cases hc : table.checkArguments (arg :: rest) with
    | error e => simp [hc] at hs
    | ok _ =>
      simp only [hc] at hs ⊢
      obtain rfl := Except.ok.inj hs
      exact Finds.intern (Option.map_eq_some_iff.mpr ⟨text, hn, rfl⟩)

theorem function {name : String} {args : List Symbol} (hs : (table.function name args).1 = .ok s) :
    (table.function name args).2.Finds s (.application name args) :=
  Finds.apply (NameTable.resolve?_intern _ _) hs

end Finds

theorem internName_of_resolve? {name : NameId} {text : String}
    (h : table.names.resolve? name = some text) : table.internName text = (name, table) := by
  simp only [SymbolTable.internName, NameTable.intern_of_resolve? h]

theorem Finds.function_eq {s : Symbol} {name : String} {args : List Symbol}
    (h : table.Finds s (.application name args)) (hargs : table.checkArguments args = .ok ()) :
    table.function name args = (.ok s, table) := by
  obtain ⟨t, hc, hs⟩ := h
  cases args with
  | nil =>
    cases t with
    | integer value => simp [Term.content?, Content.application] at hc
    | function id args => simp [Term.content?, Content.application] at hc
    | constant id =>
      obtain ⟨text, hid, he⟩ := Option.map_eq_some_iff.mp hc
      obtain rfl := Content.constant.inj he
      rw [SymbolTable.function, internName_of_resolve? hid]
      simp [SymbolTable.apply, intern_of_handles hs]
  | cons arg rest =>
    cases t with
    | integer value => simp [Term.content?, Content.application] at hc
    | constant id => simp [Term.content?, Content.application] at hc
    | function id args =>
      obtain ⟨text, hid, he⟩ := Option.map_eq_some_iff.mp hc
      obtain ⟨rfl, rfl⟩ := Content.function.inj he
      rw [SymbolTable.function, internName_of_resolve? hid]
      simp [SymbolTable.apply, hargs, intern_of_handles hs]

theorem checkArguments_of_function_ok {s : Symbol} {name : String} {args : List Symbol}
    (h : (table.function name args).1 = .ok s) : table.checkArguments args = .ok () := by
  have hnamed : ∀ arg, (table.internName name).2.isKnown arg = table.isKnown arg := fun _ => rfl
  cases args with
  | nil => rfl
  | cons arg rest =>
    simp only [SymbolTable.function, SymbolTable.apply, List.isEmpty_cons, Bool.false_eq_true,
      if_false] at h
    cases hc : (table.internName name).2.checkArguments (arg :: rest) with
    | error e => simp [hc] at h
    | ok _ =>
      rw [checkArguments_ok_iff] at hc ⊢
      exact fun arg' ha => ⟨(hc arg' ha).1, hnamed arg' ▸ (hc arg' ha).2⟩

/-- Storing an application again, at this or any later state of the table, finds its handle and
changes nothing. -/
theorem function_again {s : Symbol} {name : String} {args : List Symbol}
    (h : (table.function name args).1 = .ok s) (hg : Grows (table.function name args).2 later) :
    later.function name args = (.ok s, later) := by
  have hl := (table.function_extends name args).trans hg.toExtends
  refine ((Finds.function h).extend hg).function_eq (checkArguments_ok_iff.mpr fun arg ha => ?_)
  obtain ⟨hpositive, hknown⟩ :=
    checkArguments_ok_iff.mp (checkArguments_of_function_ok h) arg ha
  exact ⟨hpositive, hl.isKnown hknown⟩

namespace WellFormed

theorem stored_intern (h : WellFormed table) {t : Term} {c : Content}
    (hc : t.content? table.names = some c) (hb : (table.intern t).2.size ≤ 2 ^ 31) :
    (table.intern t).2.Stored (table.intern t).1 c := by
  have hn := table.names_intern t
  exact ⟨h.isNegated_intern t, content?_eq_some_iff.mpr ⟨t, h.resolve?_intern hb, hn ▸ hc⟩⟩

theorem stored_constant (h : WellFormed table) {text : String}
    (hb : (table.constant text).2.size ≤ 2 ^ 31) :
    (table.constant text).2.Stored (table.constant text).1 (.constant text) :=
  (h.internName text).stored_intern
    (Option.map_eq_some_iff.mpr ⟨text, NameTable.resolve?_intern _ _, rfl⟩) hb

theorem stored_integer (h : WellFormed table) {value : Int64}
    (hb : (table.integer value).2.size ≤ 2 ^ 31) :
    (table.integer value).2.Stored (table.integer value).1 (.integer value) :=
  h.stored_intern rfl hb

theorem stored_apply (h : WellFormed table) {name : NameId} {text : String} {args : List Symbol}
    {s : Symbol} (hn : table.names.resolve? name = some text)
    (hs : (table.apply name args).1 = .ok s) (hb : (table.apply name args).2.size ≤ 2 ^ 31) :
    (table.apply name args).2.Stored s (.application text args) := by
  cases args with
  | nil =>
    obtain rfl := Except.ok.inj hs
    exact h.stored_intern (Option.map_eq_some_iff.mpr ⟨text, hn, rfl⟩) hb
  | cons arg rest =>
    unfold SymbolTable.apply at hs hb ⊢
    simp only [List.isEmpty_cons, Bool.false_eq_true, if_false] at hs hb ⊢
    cases hc : table.checkArguments (arg :: rest) with
    | error e => simp [hc] at hs
    | ok _ =>
      simp only [hc] at hs hb ⊢
      obtain rfl := Except.ok.inj hs
      exact h.stored_intern (Option.map_eq_some_iff.mpr ⟨text, hn, rfl⟩) hb

theorem stored_function (h : WellFormed table) {name : String} {args : List Symbol} {s : Symbol}
    (hs : (table.function name args).1 = .ok s)
    (hb : (table.function name args).2.size ≤ 2 ^ 31) :
    (table.function name args).2.Stored s (.application name args) :=
  (h.internName name).stored_apply (NameTable.resolve?_intern _ _) hs hb

theorem checkArguments_of_function (h : WellFormed table) {s : Symbol} {name : NameId}
    {args : List Symbol} (hs : table.resolve? s = some (.function name args)) :
    table.checkArguments args = .ok () := by
  refine checkArguments_ok_iff.mpr fun arg ha => ?_
  obtain ⟨hp, hlt⟩ := (h.admissible hs).2.2 arg ha
  have hsize := (Array.getElem?_eq_some_iff.mp hs).1
  refine ⟨hp, ?_⟩
  rw [isKnown, decide_eq_true_eq, size]
  omega

theorem finds_of_stored (h : WellFormed table) {s : Symbol} {c : Content}
    (hs : table.Stored s c) : table.Finds s c := by
  obtain ⟨t, ht, hc⟩ := content?_eq_some_iff.mp hs.2
  exact ⟨t, hc, h.handles_iff.mpr ⟨hs.1, ht⟩⟩

/-- Storing a stored application again finds its handle and changes nothing. -/
theorem function_of_stored (h : WellFormed table) {s : Symbol} {name : String}
    {args : List Symbol} (hs : table.Stored s (.application name args)) :
    table.function name args = (.ok s, table) := by
  refine (h.finds_of_stored hs).function_eq ?_
  cases args with
  | nil => rfl
  | cons arg rest =>
    obtain ⟨id, ht, -⟩ := content?_function_iff.mp hs.2
    exact h.checkArguments_of_function ht

end WellFormed

end SymbolTable

end ExternalAtoms
