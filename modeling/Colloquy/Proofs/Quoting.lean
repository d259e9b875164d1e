import Colloquy.Tree.Basic

/-!
# Quoting and reading back

A token keeps its string: the quotes around it come off first, and between them quotes stand in
pairs, which a scan from the left joins one by one (`collapseQuotes_doubleQuotes`).  Runs of quotes
cannot fall out of step with the scan, not even at the ends, since the doubled text is read pair by
pair from its first character.

The texts that quoting writes are told by their form: quotes around a text in which quotes come in
pairs (`IsToken`).

Main statement: quoting and reading are inverse to each other between strings and these texts
(`quoted_is_read_back`).
-/

namespace Colloquy.Text

/-- Quotes stand in pairs, when they are read from the left. -/
inductive Paired : List Char → Prop
  | nil : Paired []
  | quotes {rest : List Char} (later : Paired rest) : Paired ('\'' :: '\'' :: rest)
  | plain {c : Char} {rest : List Char} (other : c ≠ '\'') (later : Paired rest) :
      Paired (c :: rest)

/-- A quote, a text with its quotes in pairs, and a quote. -/
def IsToken (t : String) : Prop :=
  ∃ inside, Paired inside ∧ t = String.ofList ('\'' :: inside ++ ['\''])

variable {c : Char} {cs rest : List Char} {s t : String}

/-! ## Pairs of quotes -/

theorem doubleQuotes_quote (rest : List Char) :
    doubleQuotes ('\'' :: rest) = '\'' :: '\'' :: doubleQuotes rest := by
  rw [doubleQuotes, if_pos rfl]

theorem doubleQuotes_plain (other : c ≠ '\'') (rest : List Char) :
    doubleQuotes (c :: rest) = c :: doubleQuotes rest := by
  rw [doubleQuotes, if_neg other]

theorem doubleQuotes_eq_flatMap (cs : List Char) :
    doubleQuotes cs = cs.flatMap fun c => if c = '\'' then ['\'', '\''] else [c] := by
  induction cs with
  | nil => rfl
  | cons c rest ih =>
    rw [doubleQuotes, List.flatMap_cons, ih]
    split <;> rfl

theorem collapseQuotes_quotes (rest : List Char) :
    collapseQuotes ('\'' :: '\'' :: rest) = '\'' :: collapseQuotes rest := by
  rw [collapseQuotes]

theorem collapseQuotes_plain (other : c ≠ '\'') (rest : List Char) :
    collapseQuotes (c :: rest) = c :: collapseQuotes rest := by
  rw [collapseQuotes]
  rintro _ rfl _
  exact other rfl

theorem paired_doubleQuotes (cs : List Char) : Paired (doubleQuotes cs) := by
  induction cs with
  | nil => exact .nil
  | cons c rest ih =>
    by_cases other : c = '\''
    · subst other
      rw [doubleQuotes_quote]
      exact .quotes ih
    · rw [doubleQuotes_plain other]
      exact .plain other ih

/-- **Doubled quotes are read as they were.** -/
theorem collapseQuotes_doubleQuotes (cs : List Char) : collapseQuotes (doubleQuotes cs) = cs := by
  induction cs with
  | nil => rfl
  | cons c rest ih =>
    by_cases other : c = '\''
    · subst other
      rw [doubleQuotes_quote, collapseQuotes_quotes, ih]
    · rw [doubleQuotes_plain other, collapseQuotes_plain other, ih]

/-- **Paired quotes are written as they were.** -/
theorem doubleQuotes_collapseQuotes (h : Paired cs) : doubleQuotes (collapseQuotes cs) = cs := by
  induction h with
  | nil => rfl
  | quotes _ ih => rw [collapseQuotes_quotes, doubleQuotes_quote, ih]
  | plain other _ ih => rw [collapseQuotes_plain other, doubleQuotes_plain other, ih]

/-! ## The outer quotes -/

/-- Only the outer quotes come off, whatever is next to them. -/
theorem insideQuotes_wrapped (cs : List Char) : insideQuotes ('\'' :: cs ++ ['\'']) = cs := by
  simp [insideQuotes]

theorem unquote_wrapped (cs : List Char) :
    unquote (String.ofList ('\'' :: cs ++ ['\''])) = String.ofList (collapseQuotes cs) := by
  rw [unquote, String.toList_ofList, insideQuotes_wrapped]

theorem unquote_token (s : String) : unquote (token s) = s := by
  rw [token, unquote_wrapped, collapseQuotes_doubleQuotes, String.ofList_toList]

theorem token_unquote (h : IsToken t) : token (unquote t) = t := by
  obtain ⟨inside, paired, rfl⟩ := h
  rw [unquote_wrapped, token, String.toList_ofList, doubleQuotes_collapseQuotes paired]

theorem isToken_token (s : String) : IsToken (token s) := ⟨_, paired_doubleQuotes s.toList, rfl⟩

/-- **Quoting and reading are inverse.**  The token of a string is the string between quotes, with
each of its quotes written twice, and is read as that string; so the tokens of different strings
are read differently, and every string is what some token is read as.  The tokens are the texts
between quotes in which quotes stand in pairs: each of them is the token of just the string that it
is read as. -/
theorem quoted_is_read_back :
    (∀ s, (token s).toList
      = '\'' :: (s.toList.flatMap fun c => if c = '\'' then ['\'', '\''] else [c]) ++ ['\''])
    ∧ (∀ s, Literal.ofToken (token s) = .string s)
    ∧ (∀ s t, s ≠ t → Literal.ofToken (token s) ≠ Literal.ofToken (token t))
    ∧ (∀ s, ∃ t, IsToken t ∧ Literal.ofToken t = .string s)
    ∧ ∀ t s, (IsToken t ∧ Literal.ofToken t = .string s) ↔ t = token s := by
  have read (s : String) : Literal.ofToken (token s) = .string s := by
    rw [Literal.ofToken, unquote_token]
  refine ⟨fun s => ?_, read, fun s t differ same => differ ?_,
    fun s => ⟨token s, isToken_token s, read s⟩, fun t s => ⟨?_, ?_⟩⟩
  · rw [token, String.toList_ofList, doubleQuotes_eq_flatMap]
  · rw [read, read] at same
    exact Literal.string.inj same
  · rintro ⟨written, same⟩
    rw [← Literal.string.inj same, token_unquote written]
  · rintro rfl
    exact ⟨isToken_token s, read s⟩

example : Literal.ofToken "'''it''''s'''" = .string "'it''s'" := by decide +kernel

end Colloquy.Text
