import JsonTable.Format.Operation

/-!
# Tokens of a format

A format is a sequence of tokens with blanks and comments around them. `Spaced`
says which texts show a given sequence. Two rules tie it to `skipBlanks`, which
finds the next token of a text: `spaced_nil_iff` and `spaced_cons_iff`. All that
is said about reading a format rests on them, so that gaps need no thought
outside of this module.
-/

namespace JsonTable.Format

/-- Blanks and whole comments, as they may stand before a token. -/
inductive Gap : Bytes → Prop where
  | nil : Gap []
  | blank {b : UInt8} {gap : Bytes} : isBlank b = true → Gap gap → Gap (b :: gap)
  | comment {body gap : Bytes} : Byte.lineFeed ∉ body → Gap gap →
      Gap (Byte.hash :: body ++ Byte.lineFeed :: gap)

/-- What may stand after the last token. The text may end within a comment. -/
inductive Ending : Bytes → Prop where
  | gap {gap : Bytes} : Gap gap → Ending gap
  | comment {gap body : Bytes} : Gap gap → Byte.lineFeed ∉ body →
      Ending (gap ++ Byte.hash :: body)

inductive Token where
  | dot
  | slash
  | plus
  | equals
  | openBracket
  | closeBracket
  | key (text : Bytes)
deriving Repr, DecidableEq

def Token.toBytes : Token → Bytes
  | .dot => [Byte.dot]
  | .slash => [Byte.slash]
  | .plus => [Byte.plus]
  | .equals => [Byte.equals]
  | .openBracket => [Byte.openBracket]
  | .closeBracket => [Byte.closeBracket]
  | .key text => Bytes.inQuotes text

/-- A text that shows the tokens, with gaps before, between and after them. -/
inductive Spaced : List Token → Bytes → Prop where
  | nil {ending : Bytes} : Ending ending → Spaced [] ending
  | cons {gap rest : Bytes} {token : Token} {tokens : List Token} : Gap gap →
      Spaced tokens rest → Spaced (token :: tokens) (gap ++ token.toBytes ++ rest)

def IsKey (text : Bytes) : Prop :=
  text ≠ [] ∧ Byte.quote ∉ text

instance (text : Bytes) : Decidable (IsKey text) :=
  inferInstanceAs (Decidable (text ≠ [] ∧ Byte.quote ∉ text))

/-! ## Skipping blanks -/

theorem skipBlanksFrom_comment {body : Bytes} (hbody : Byte.lineFeed ∉ body) (rest : Bytes) :
    skipBlanksFrom true (body ++ Byte.lineFeed :: rest) = skipBlanks rest := by
  induction body with
  | nil => rfl
  | cons b body ih =>
      have hb : (b != Byte.lineFeed) = true := bne_iff_ne.mpr fun h => hbody (by simp [h])
      rw [List.cons_append, skipBlanksFrom, hb]
      exact ih fun h => hbody (by simp [h])

theorem skipBlanksFrom_unended {body : Bytes} (hbody : Byte.lineFeed ∉ body) :
    skipBlanksFrom true body = [] := by
  induction body with
  | nil => rfl
  | cons b body ih =>
      have hb : (b != Byte.lineFeed) = true := bne_iff_ne.mpr fun h => hbody (by simp [h])
      rw [skipBlanksFrom, hb]
      exact ih fun h => hbody (by simp [h])

theorem skipBlanks_hash (rest : Bytes) :
    skipBlanks (Byte.hash :: rest) = skipBlanksFrom true rest := by
  simp [skipBlanks, skipBlanksFrom, show isBlank Byte.hash = false from rfl]

theorem Gap.skipBlanks_append {gap : Bytes} (h : Gap gap) (rest : Bytes) :
    skipBlanks (gap ++ rest) = skipBlanks rest := by
  induction h with
  | nil => rfl
  | blank hb _ ih => simpa [skipBlanks, skipBlanksFrom, hb] using ih
  | comment hbody _ ih =>
      rw [List.append_assoc, List.cons_append, List.cons_append, skipBlanks_hash,
        skipBlanksFrom_comment hbody, ih]

theorem Ending.skipBlanks_eq_nil {ending : Bytes} (h : Ending ending) :
    skipBlanks ending = [] := by
  cases h with
  | gap h => simpa [skipBlanks, skipBlanksFrom] using h.skipBlanks_append []
  | comment h hbody => rw [h.skipBlanks_append, skipBlanks_hash, skipBlanksFrom_unended hbody]

theorem skipBlanks_blank {b : UInt8} (hb : isBlank b = true) (rest : Bytes) :
    skipBlanks (b :: rest) = skipBlanks rest := by
  simp [skipBlanks, skipBlanksFrom, hb]

theorem skipBlanks_solid {b : UInt8} (hb : isBlank b = false) (hhash : b ≠ Byte.hash)
    (rest : Bytes) : skipBlanks (b :: rest) = b :: rest := by
  simp [skipBlanks, skipBlanksFrom, hb, hhash]

/-- What is skipped is a gap, except that the text may end within a comment after it. -/
theorem exists_gap (text : Bytes) :
    ∃ gap, Gap gap ∧
      (text = gap ++ skipBlanks text ∨
        skipBlanks text = [] ∧
          ∃ body, Byte.lineFeed ∉ body ∧ text = gap ++ Byte.hash :: body) := by
  -- A comment takes any number of bytes at once, hence induction on the length.
  induction hlength : text.length using Nat.strongRecOn generalizing text with
  | ind length ih =>
      cases text with
      | nil => exact ⟨[], .nil, Or.inl rfl⟩
      | cons b rest =>
          simp only [List.length_cons] at hlength
          by_cases hb : isBlank b = true
          · obtain ⟨gap, hgap, h⟩ := ih rest.length (by omega) rest rfl
            refine ⟨b :: gap, .blank hb hgap, ?_⟩
            rw [skipBlanks_blank hb]
            rcases h with h | ⟨hnil, body, hbody, h⟩
            · exact Or.inl (by rw [List.cons_append, ← h])
            · exact Or.inr ⟨hnil, body, hbody, by rw [List.cons_append, ← h]⟩
          by_cases hhash : b = Byte.hash
          · subst hhash
            by_cases hline : Byte.lineFeed ∈ rest
            · obtain ⟨body, after, rfl, hbody⟩ := List.eq_append_cons_of_mem hline
              obtain ⟨gap, hgap, h⟩ := ih after.length (by simp at hlength; omega) after rfl
              refine ⟨Byte.hash :: body ++ Byte.lineFeed :: gap, .comment hbody hgap, ?_⟩
              rw [skipBlanks_hash, skipBlanksFrom_comment hbody]
              rcases h with h | ⟨hnil, tail, htail, h⟩
              · refine Or.inl ?_
                simpa using h
              · refine Or.inr ⟨hnil, tail, htail, ?_⟩
                simpa using h
            · rw [skipBlanks_hash, skipBlanksFrom_unended hline]
              exact ⟨[], .nil, Or.inr ⟨rfl, rest, hline, rfl⟩⟩
          · have hsolid : isBlank b = false := by simpa using hb
            exact ⟨[], .nil, Or.inl (skipBlanks_solid hsolid hhash rest).symm⟩

theorem skipBlanks_eq_nil_iff {text : Bytes} : skipBlanks text = [] ↔ Ending text := by
  constructor
  · intro hnil
    obtain ⟨gap, hgap, h | ⟨_, body, hbody, h⟩⟩ := exists_gap text
    · rw [hnil, List.append_nil] at h
      exact h ▸ .gap hgap
    · exact h ▸ .comment hgap hbody
  · exact Ending.skipBlanks_eq_nil

theorem exists_gap_of_skipBlanks {text rest : Bytes} {b : UInt8}
    (h : skipBlanks text = b :: rest) : ∃ gap, Gap gap ∧ text = gap ++ b :: rest := by
  obtain ⟨gap, hgap, htext | ⟨hnil, _⟩⟩ := exists_gap text
  · exact ⟨gap, hgap, h ▸ htext⟩
  · simp [hnil] at h

theorem length_skipBlanks_le (text : Bytes) : (skipBlanks text).length ≤ text.length := by
  obtain ⟨gap, _, h | ⟨hnil, _⟩⟩ := exists_gap text
  · have hlength := congrArg List.length h
    rw [List.length_append] at hlength
    omega
  · simp [hnil]

@[simp]
theorem skipBlanks_skipBlanks (text : Bytes) :
    skipBlanks (skipBlanks text) = skipBlanks text := by
  obtain ⟨gap, hgap, h | ⟨hnil, _⟩⟩ := exists_gap text
  · have hskip := hgap.skipBlanks_append (skipBlanks text)
    rw [← h] at hskip
    exact hskip.symm
  · rw [hnil]
    rfl

/-! ## Finding tokens -/

theorem Token.skipBlanks_append (token : Token) (rest : Bytes) :
    skipBlanks (token.toBytes ++ rest) = token.toBytes ++ rest := by
  cases token <;> exact skipBlanks_solid (by decide) (by decide) _

theorem Token.length_pos (token : Token) : 0 < token.toBytes.length := by
  cases token <;> simp [toBytes, Bytes.inQuotes]

theorem spaced_nil_iff {text : Bytes} : Spaced [] text ↔ skipBlanks text = [] := by
  rw [skipBlanks_eq_nil_iff]
  constructor
  · intro h
    cases h with
    | nil h => exact h
  · exact Spaced.nil

theorem spaced_cons_iff {token : Token} {tokens : List Token} {text : Bytes} :
    Spaced (token :: tokens) text ↔
      ∃ rest, skipBlanks text = token.toBytes ++ rest ∧ Spaced tokens rest := by
  constructor
  · intro h
    cases h with
    | @cons gap rest _ _ hgap hrest =>
        refine ⟨rest, ?_, hrest⟩
        rw [List.append_assoc, hgap.skipBlanks_append, token.skipBlanks_append]
  · rintro ⟨rest, hskip, hrest⟩
    obtain ⟨b, bytes, hbytes⟩ := List.exists_cons_of_length_pos token.length_pos
    obtain ⟨gap, hgap, rfl⟩ := exists_gap_of_skipBlanks (by rw [hskip, hbytes]; rfl)
    have h : Spaced (token :: tokens) (gap ++ token.toBytes ++ rest) := .cons hgap hrest
    rwa [hbytes, List.append_assoc] at h

@[simp]
theorem spaced_skipBlanks {tokens : List Token} {text : Bytes} :
    Spaced tokens (skipBlanks text) ↔ Spaced tokens text := by
  cases tokens with
  | nil => simp [spaced_nil_iff]
  | cons token tokens => simp [spaced_cons_iff]

/-- A newline ends the comment that a text may end within, so that tokens can follow. -/
theorem Spaced.append {tokens more : List Token} {text rest : Bytes} (h : Spaced tokens text)
    (hmore : Spaced more rest) : Spaced (tokens ++ more) (text ++ Byte.lineFeed :: rest) := by
  induction h with
  | nil hending =>
      have hline : skipBlanks (Byte.lineFeed :: rest) = skipBlanks rest :=
        skipBlanks_blank rfl rest
      rw [List.nil_append, ← spaced_skipBlanks]
      cases hending with
      | gap hgap => rwa [hgap.skipBlanks_append, hline, spaced_skipBlanks]
      | comment hgap hbody =>
          rwa [List.append_assoc, List.cons_append, hgap.skipBlanks_append, skipBlanks_hash,
            skipBlanksFrom_comment hbody, spaced_skipBlanks]
  | cons hgap _ ih =>
      rw [List.append_assoc]
      exact .cons hgap ih

end JsonTable.Format
