import ExternalAtoms.Proofs.Text.Token

/-! # Quoting and back

Reading a string constant gives back the text it was written for. The writer uses one form only, so
writing what was read gives back the constant exactly if it is in that form: between the quotes
stand plain characters and the three escapes, and nothing of what the reader accepts beyond them.
-/
namespace ExternalAtoms.Text
variable {c : Char} {body rest cs : List Char}

/-- A character that a string constant holds as it is. -/
structure Plain (c : Char) : Prop where
  ne_quote : c ≠ '"'
  ne_backslash : c ≠ '\\'
  ne_newline : c ≠ '\n'

/-- What the writer puts between the quotes. -/
inductive QuotedBody : List Char → Prop
  | nil : QuotedBody []
  | plain {c : Char} {rest : List Char} : Plain c → QuotedBody rest → QuotedBody (c :: rest)
  | escapedQuote {rest : List Char} : QuotedBody rest → QuotedBody ('\\' :: '"' :: rest)
  | escapedBackslash {rest : List Char} : QuotedBody rest → QuotedBody ('\\' :: '\\' :: rest)
  | escapedNewline {rest : List Char} : QuotedBody rest → QuotedBody ('\\' :: 'n' :: rest)

/-- A text as the writer writes it: an opening quote, a body of its form and a closing quote. -/
def InQuotedForm (text : String) : Prop :=
  ∃ body, QuotedBody body ∧ text.toList = '"' :: (body ++ ['"'])

theorem escapeQuoted_of_plain (h : Plain c) : escapeQuoted c = [c] := by
  rw [escapeQuoted, if_neg h.ne_quote, if_neg h.ne_backslash, if_neg h.ne_newline]

theorem escaped_or_plain (c : Char) : c = '"' ∨ c = '\\' ∨ c = '\n' ∨ Plain c := by
  by_cases hquote : c = '"'
  · exact .inl hquote
  · by_cases hbackslash : c = '\\'
    · exact .inr (.inl hbackslash)
    · by_cases hnewline : c = '\n'
      · exact .inr (.inr (.inl hnewline))
      · exact .inr (.inr (.inr ⟨hquote, hbackslash, hnewline⟩))

section Body

theorem decodeBody_of_plain (h : Plain c) : decodeBody (c :: rest) = c :: decodeBody rest := by
  rw [decodeBody.eq_def]
  split <;> simp_all [Plain.ne_backslash h]

/-- The reader takes the code of one character off the front, whatever follows it. -/
theorem decodeBody_escapeQuoted (c : Char) (rest : List Char) :
    decodeBody (escapeQuoted c ++ rest) = c :: decodeBody rest := by
  rcases escaped_or_plain c with rfl | rfl | rfl | hplain
  · simp [escapeQuoted, decodeBody]
  · simp [escapeQuoted, decodeBody]
  · simp [escapeQuoted, decodeBody]
  · rw [escapeQuoted_of_plain hplain]
    exact decodeBody_of_plain hplain

theorem decodeBody_flatMap (text : List Char) : decodeBody (text.flatMap escapeQuoted) = text := by
  induction text with
  | nil => rfl
  | cons c rest ih => rw [List.flatMap_cons, decodeBody_escapeQuoted, ih]

theorem QuotedBody.escapeQuoted_append (h : QuotedBody rest) (c : Char) :
    QuotedBody (escapeQuoted c ++ rest) := by
  rcases escaped_or_plain c with rfl | rfl | rfl | hplain
  · exact h.escapedQuote
  · exact h.escapedBackslash
  · exact h.escapedNewline
  · rw [escapeQuoted_of_plain hplain]
    exact h.plain hplain

theorem quotedBody_flatMap (text : List Char) : QuotedBody (text.flatMap escapeQuoted) := by
  induction text with
  | nil => exact .nil
  | cons c rest ih =>
    rw [List.flatMap_cons]
    exact ih.escapeQuoted_append c

/-- A body of the writer's form is what the writer makes of the text read from it. -/
theorem QuotedBody.flatMap_decodeBody (h : QuotedBody body) :
    (decodeBody body).flatMap escapeQuoted = body := by
  induction h with
  | nil => rfl
  | plain hc _ ih =>
    rw [decodeBody_of_plain hc, List.flatMap_cons, escapeQuoted_of_plain hc, ih]
    rfl
  | escapedQuote _ ih | escapedBackslash _ ih | escapedNewline _ ih =>
    simp [decodeBody, escapeQuoted, ih]

end Body

section List

theorem isQuotedList_cons_append (body : List Char) :
    isQuotedList ('"' :: (body ++ ['"'])) = true := by
  rw [isQuotedList, ← List.cons_append, List.getLast?_concat]
  simp

theorem decodeQuoted_cons_append (body : List Char) :
    decodeQuoted ('"' :: (body ++ ['"'])) = decodeBody body := by
  rw [decodeQuoted, if_pos (isQuotedList_cons_append body), List.tail_cons, List.dropLast_concat]

theorem decodeQuoted_encodeQuoted (text : List Char) : decodeQuoted (encodeQuoted text) = text := by
  rw [encodeQuoted, decodeQuoted_cons_append, decodeBody_flatMap]

end List

section Text
variable {text : String}

theorem toList_quote (text : String) : (quote text).toList = encodeQuoted text.toList :=
  String.toList_ofList

theorem isQuoted_quote (text : String) : isQuoted (quote text) = true := by
  rw [isQuoted, toList_quote]
  exact isQuotedList_cons_append _

theorem unquote_quote (text : String) : unquote (quote text) = text := by
  rw [unquote, toList_quote, decodeQuoted_encodeQuoted, String.ofList_toList]

theorem unquote_of_not_quoted (h : isQuoted text = false) : unquote text = text := by
  rw [isQuoted] at h
  rw [unquote, decodeQuoted, h, if_neg Bool.false_ne_true, String.ofList_toList]

theorem inQuotedForm_quote (text : String) : InQuotedForm (quote text) :=
  ⟨text.toList.flatMap escapeQuoted, quotedBody_flatMap _, toList_quote text⟩

theorem InQuotedForm.quote_unquote (h : InQuotedForm text) : quote (unquote text) = text := by
  obtain ⟨body, hbody, htext⟩ := h
  apply String.toList_inj.mp
  rw [toList_quote, unquote, String.toList_ofList, htext, decodeQuoted_cons_append, encodeQuoted,
    hbody.flatMap_decodeBody]

/-- Writing and reading undo each other: a text that was written is read back, so two texts are
never written alike; a text that is not quoted is read as it stands; and a text is written again as
it was read exactly if it has the writer's form. -/
theorem quoting_round_trip :
    (∀ text, isQuoted (quote text) = true ∧ unquote (quote text) = text) ∧
      Function.Injective quote ∧
      (∀ text, isQuoted text = false → unquote text = text) ∧
      ∀ text, quote (unquote text) = text ↔ InQuotedForm text := by
  refine ⟨fun text => ⟨isQuoted_quote text, unquote_quote text⟩,
    Function.LeftInverse.injective unquote_quote, fun text h => unquote_of_not_quoted h,
    fun text => ⟨fun h => ?_, InQuotedForm.quote_unquote⟩⟩
  have hform := inQuotedForm_quote (unquote text)
  rwa [h] at hform

/-- A backslash and an `n` are not taken for a line break, and a bare quote is written again with a
backslash before it. -/
theorem quoting_round_trip_backslash :
    unquote (quote "\\n") = "\\n" ∧ unquote "no quotes" = "no quotes" ∧
      ¬ InQuotedForm "\"a\"b\"" := by
  obtain ⟨hread, -, hplain, hform⟩ := quoting_round_trip
  refine ⟨(hread _).2, hplain _ (by decide), fun h => ?_⟩
  exact absurd ((hform _).mpr h) (by decide)

end Text

end ExternalAtoms.Text
