import JsonTable.Proofs.DelimitedText.Joining

/-!
# Reading quoted text back

A quoted cell ends at the first double quote that no other follows, whatever the cell
holds, as long as nothing that begins with a quote can stand after it. Then the
separators within cells are never taken for separators between them.
-/

namespace JsonTable.DelimitedText

open Bytes

def doubleQuotes (cell : Bytes) : Bytes :=
  cell.flatMap fun b => if b = Byte.quote then [Byte.quote, Byte.quote] else [b]

/-- The text up to the quote that closes it, with doubled quotes undone, and what follows. -/
def readToQuote : Bytes → Option (Bytes × Bytes)
  | [] => none
  | [b] => if b = Byte.quote then some ([], []) else none
  | b :: c :: rest =>
      if b = Byte.quote then
        if c = Byte.quote then
          (readToQuote rest).map fun (cell, rest) => (Byte.quote :: cell, rest)
        else some ([], c :: rest)
      else (readToQuote (c :: rest)).map fun (cell, rest) => (b :: cell, rest)

def readQuotedCell (text : Bytes) : Option (Bytes × Bytes) :=
  (after? [Byte.quote] text).bind readToQuote

/-! ## One cell -/

theorem readToQuote_cons {b : UInt8} (h : b ≠ Byte.quote) (text : Bytes) :
    readToQuote (b :: text) = (readToQuote text).map fun (cell, rest) => (b :: cell, rest) := by
  cases text with
  | nil => simp [readToQuote, h]
  | cons c text => simp [readToQuote, h]

theorem readToQuote_doubled (text : Bytes) :
    readToQuote (Byte.quote :: Byte.quote :: text) =
      (readToQuote text).map fun (cell, rest) => (Byte.quote :: cell, rest) := by
  simp [readToQuote]

theorem readToQuote_closed {rest : Bytes} (h : rest.head? ≠ some Byte.quote) :
    readToQuote (Byte.quote :: rest) = some ([], rest) := by
  cases rest with
  | nil => simp [readToQuote]
  | cons c rest =>
      have hc : c ≠ Byte.quote := by simpa using h
      simp [readToQuote, hc]

theorem doubleQuotes_cons_of_ne {b : UInt8} (h : b ≠ Byte.quote) (cell : Bytes) :
    doubleQuotes (b :: cell) = b :: doubleQuotes cell := by
  simp [doubleQuotes, h]

theorem doubleQuotes_cons_quote (cell : Bytes) :
    doubleQuotes (Byte.quote :: cell) = Byte.quote :: Byte.quote :: doubleQuotes cell := by
  simp [doubleQuotes]

theorem readToQuote_doubleQuotes (cell : Bytes) {rest : Bytes}
    (h : rest.head? ≠ some Byte.quote) :
    readToQuote (doubleQuotes cell ++ Byte.quote :: rest) = some (cell, rest) := by
  induction cell with
  | nil => exact readToQuote_closed h
  | cons b cell ih =>
      by_cases hb : b = Byte.quote
      · rw [hb, doubleQuotes_cons_quote, List.cons_append, List.cons_append,
          readToQuote_doubled, ih]
        rfl
      · rw [doubleQuotes_cons_of_ne hb, List.cons_append, readToQuote_cons hb, ih]
        rfl

theorem readToQuote_sound {text cell rest : Bytes} (h : readToQuote text = some (cell, rest)) :
    text = doubleQuotes cell ++ Byte.quote :: rest := by
  induction text using readToQuote.induct generalizing cell with
  | case1 => cases h
  | case2 =>
      cases h
      rfl
  | case3 b hb => simp [readToQuote, hb] at h
  | case4 text ih =>
      rw [readToQuote_doubled] at h
      obtain ⟨⟨inner, after⟩, hread, hcell⟩ := Option.map_eq_some_iff.mp h
      cases hcell
      rw [doubleQuotes_cons_quote, ih hread]
      rfl
  | case5 c text hc =>
      have hopen : (c :: text).head? ≠ some Byte.quote := by simpa using hc
      rw [readToQuote_closed hopen] at h
      cases h
      rfl
  | case6 b c text hb ih =>
      rw [readToQuote_cons hb] at h
      obtain ⟨⟨inner, after⟩, hread, hcell⟩ := Option.map_eq_some_iff.mp h
      cases hcell
      rw [doubleQuotes_cons_of_ne hb, ih hread]
      rfl

theorem quoteCell_append (cell rest : Bytes) :
    quoteCell cell ++ rest = [Byte.quote] ++ (doubleQuotes cell ++ Byte.quote :: rest) := by
  simp [quoteCell, doubleQuotes]

/-- Whatever the cell holds, its end is found if no quote follows it. -/
theorem readQuotedCell_reads :
    Reads (fun rest => rest.head? ≠ some Byte.quote) (fun text cell => text = quoteCell cell)
      readQuotedCell where
  sound {text rest cell} h := by
    obtain ⟨opened, hopened, hread⟩ := Option.bind_eq_some_iff.mp h
    refine ⟨quoteCell cell, ?_, rfl⟩
    rw [quoteCell_append, ← readToQuote_sound hread]
    exact after?_eq_some_iff.mp hopened
  complete {used rest cell} hused hrest := by
    have hopened := after?_eq_some_iff.mpr (quoteCell_append cell rest)
    rw [hused, readQuotedCell, hopened]
    exact readToQuote_doubleQuotes cell hrest

/-! ## Tables -/

/-- The separators are told apart, from each other and from a quote that closes a cell. -/
structure ApartFromQuotes (style : TextStyle) : Prop extends Apart style where
  separator_head : style.separator.head? ≠ some Byte.quote
  lineSeparator_head : style.lineSeparator.head? ≠ some Byte.quote

theorem head?_append_ne {b : UInt8} {lead : Bytes} (hne : lead ≠ []) (h : lead.head? ≠ some b)
    (more : Bytes) : (lead ++ more).head? ≠ some b := by
  cases lead with
  | nil => exact absurd rfl hne
  | cons c lead => exact h

def quotedText (style : TextStyle) (rows : Rows) : Bytes :=
  style.lineSeparator.intercalate
    (rows.map fun row => style.separator.intercalate (row.map quoteCell))

theorem text_of_quotes {style : TextStyle} {rows : Rows} (h : style.quotes rows = true) :
    style.text rows = quotedText style rows := by
  rw [TextStyle.text, TextStyle.lines, h]
  rfl

theorem joined_quoted_iff {style : TextStyle} {text : Bytes} {rows : Rows} :
    Joined style.lineSeparator (Joined style.separator fun text cell => text = quoteCell cell)
        text rows ↔
      rows ≠ [] ∧ (∀ row ∈ rows, row ≠ []) ∧ text = quotedText style rows := by
  have hcell : ∀ text cell : Bytes, text = quoteCell cell ↔ True ∧ text = quoteCell cell := by
    simp
  refine joined_iff fun text row => ?_
  rw [joined_iff hcell]
  simp

/-- Every quoted cell has its quotes, so that only the empty table has no text. -/
theorem quotedText_eq_nil_iff {style : TextStyle} {rows : Rows} (h : ∀ row ∈ rows, row ≠ []) :
    quotedText style rows = [] ↔ rows = [] := by
  constructor
  · intro hnil
    cases rows with
    | nil => rfl
    | cons row rows =>
        cases row with
        | nil => exact absurd rfl (h [] List.mem_cons_self)
        | cons cell row => simp [quotedText, quoteCell] at hnil
  · rintro rfl
    rfl

theorem readTable_eq_some_iff_quotedText {style : TextStyle} (hstyle : ApartFromQuotes style)
    {text : Bytes} {rows : Rows} :
    readTable style readQuotedCell text = some rows ↔
      (∀ row ∈ rows, row ≠ []) ∧ text = quotedText style rows := by
  by_cases htext : text = []
  · rw [htext]
    constructor
    · intro h
      cases h
      exact ⟨nofun, rfl⟩
    · rintro ⟨hrows, hnil⟩
      rw [(quotedText_eq_nil_iff hrows).mp hnil.symm]
      rfl
  · have hseparator := head?_append_ne hstyle.separator_ne_nil hstyle.separator_head
    have hline := head?_append_ne hstyle.lineSeparator_ne_nil hstyle.lineSeparator_head
    rw [readTable_eq_some_iff hstyle.toApart readQuotedCell_reads hseparator hline nofun htext,
      joined_quoted_iff]
    constructor
    · rintro ⟨_, h⟩
      exact h
    · rintro ⟨hrows, rfl⟩
      exact ⟨fun hnil => htext (hnil ▸ rfl), hrows, rfl⟩

/--
For separators that are told apart, one reader gets from each quoted text the table
it was made from, whatever bytes the cells hold, and gets nothing from any other
text. Two tables never have one text.
-/
theorem quoted_text_reads_back {style : TextStyle} (hstyle : ApartFromQuotes style)
    (halways : style.quoting = .always) :
    (∀ (text : Bytes) (rows : Rows), readTable style readQuotedCell text = some rows ↔
      (∀ row ∈ rows, row ≠ []) ∧ text = style.text rows) ∧
    ∀ rows rows' : Rows, (∀ row ∈ rows, row ≠ []) → (∀ row ∈ rows', row ≠ []) →
      style.text rows = style.text rows' → rows = rows' := by
  have hquotes (rows : Rows) : style.text rows = quotedText style rows :=
    text_of_quotes (by rw [TextStyle.quotes, halways])
  have hread (text : Bytes) (rows : Rows) : readTable style readQuotedCell text = some rows ↔
      (∀ row ∈ rows, row ≠ []) ∧ text = style.text rows := by
    rw [hquotes]
    exact readTable_eq_some_iff_quotedText hstyle
  refine ⟨hread, fun rows rows' hrows hrows' htext => ?_⟩
  have hfirst := (hread _ _).mpr ⟨hrows, rfl⟩
  have hsecond := (hread _ _).mpr ⟨hrows', htext⟩
  exact Option.some.inj (hfirst.symm.trans hsecond)

/-- The separators begin alike, and they, quotes and line ends stand in the cells. -/
theorem quoted_text_reads_back_with_separators_in_cells :
    let style : TextStyle :=
      { separator := ascii ";;", lineSeparator := ascii ";\n", quoting := .always }
    let rows : Rows := [[ascii "\"", ascii "a\";;\"b"], [[], [0x00, 0x0d, 0xff]], [ascii ";\n"]]
    readTable style readQuotedCell (style.text rows) = some rows := by
  intro style rows
  have hstyle : ApartFromQuotes style :=
    { separator_not_prefix := by decide
      lineSeparator_not_prefix := by decide
      separator_head := by decide
      lineSeparator_head := by decide }
  have hrows : ∀ row ∈ rows, row ≠ [] := by
    decide
  exact ((quoted_text_reads_back hstyle rfl).1 (style.text rows) rows).mpr ⟨hrows, rfl⟩

end JsonTable.DelimitedText
