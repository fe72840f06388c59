import JsonTable.Proofs.DelimitedText.Plain
import JsonTable.Proofs.DelimitedText.Quoting

/-!
# Reading smart text back

Smart quoting decides for a table as a whole, and its text does not say how. A reader
need not be told: it takes a cell that begins with a quote for a quoted one and any
other for a plain one. It goes wrong only where nothing is quoted although a cell
begins with a quote.
-/

namespace JsonTable.DelimitedText

open Bytes

/-- What a cell may be written as: quoted, or as it is unless it would be read otherwise. -/
inductive WrittenCell (style : TextStyle) : Bytes → Bytes → Prop where
  | quoted {cell : Bytes} : WrittenCell style (quoteCell cell) cell
  | plain {cell : Bytes} : cell.head? ≠ some Byte.quote → PlainCell style cell →
      WrittenCell style cell cell

def readCell (style : TextStyle) (text : Bytes) : Option (Bytes × Bytes) :=
  if text.head? = some Byte.quote then readQuotedCell text else readPlainCell style text

/-- Separators that are clear of each other and of the quotes of a cell. -/
structure ClearOfQuotes (style : TextStyle) : Prop extends Clear style where
  separator_head : style.separator.head? ≠ some Byte.quote
  lineSeparator_head : style.lineSeparator.head? ≠ some Byte.quote

variable {style : TextStyle}

theorem ClearOfQuotes.head_of_endsCell (h : ClearOfQuotes style) {rest : Bytes}
    (hrest : EndsCell style rest) : rest.head? ≠ some Byte.quote := by
  rcases hrest with rfl | ⟨stop, hstop, more, rfl⟩
  · nofun
  · rcases mem_stops_iff.mp hstop with rfl | rfl
    · exact head?_append_ne h.separator_ne_nil h.separator_head more
    · exact head?_append_ne h.lineSeparator_ne_nil h.lineSeparator_head more

/-- Each reader takes the cells of its kind, and none is taken for one of the other kind. -/
theorem readCell_reads (h : ClearOfQuotes style) :
    Reads (EndsCell style) (WrittenCell style) (readCell style) where
  sound {text rest cell} hread := by
    unfold readCell at hread
    split at hread
    · obtain ⟨used, htext, hused⟩ := readQuotedCell_reads.sound hread
      exact ⟨used, htext, hused ▸ .quoted⟩
    · next hhead =>
        obtain ⟨used, rfl, hplain, rfl⟩ := (readPlainCell_reads h.toClear).sound hread
        refine ⟨used, rfl, .plain (fun hquote => hhead ?_) hplain⟩
        rw [List.head?_append, hquote]
        rfl
  complete {written rest cell} hwritten hrest := by
    have hhead := h.head_of_endsCell hrest
    cases hwritten with
    | quoted =>
        have hquote : (quoteCell cell ++ rest).head? = some Byte.quote := rfl
        rw [readCell, if_pos hquote]
        exact readQuotedCell_reads.complete rfl hhead
    | plain hcell hplain =>
        have hnoQuote : (written ++ rest).head? ≠ some Byte.quote := by
          cases written with
          | nil => exact hhead
          | cons b written => exact hcell
        rw [readCell, if_neg hnoQuote]
        exact (readPlainCell_reads h.toClear).complete ⟨hplain, rfl⟩ hrest

/-! ## Tables -/

theorem readRows_eq_some_iff_written (h : ClearOfQuotes style) {text : Bytes} {rows : Rows} :
    readRows style (readCell style) text = some rows ↔
      Joined style.lineSeparator (Joined style.separator (WrittenCell style)) text rows :=
  readRows_eq_some_iff h.toClear.apart (readCell_reads h) endsCell_separator
    endsCell_lineSeparator endsCell_nil

theorem joined_quotedText {rows : Rows} (hne : rows ≠ []) (hrows : ∀ row ∈ rows, row ≠ []) :
    Joined style.lineSeparator (Joined style.separator (WrittenCell style))
      (quotedText style rows) rows :=
  joined_intercalate hne fun row hrow => joined_intercalate (hrows row hrow) fun _ _ => .quoted

theorem joined_plainText {rows : Rows} (hne : rows ≠ []) (hrows : ∀ row ∈ rows, row ≠ [])
    (hcells : ∀ row ∈ rows, ∀ cell ∈ row, cell.head? ≠ some Byte.quote ∧ PlainCell style cell) :
    Joined style.lineSeparator (Joined style.separator (WrittenCell style))
      (plainText style rows) rows := by
  refine joined_intercalate hne fun row hrow => ?_
  have hcell : ∀ cell ∈ row, WrittenCell style (id cell) cell := fun cell hcell =>
    .plain (hcells row hrow cell hcell).1 (hcells row hrow cell hcell).2
  have hjoined : Joined style.separator (WrittenCell style)
      (style.separator.intercalate (row.map id)) row :=
    joined_intercalate (hrows row hrow) hcell
  rwa [List.map_id] at hjoined

/-- Either way of writing a table is read by the one reader. -/
theorem readRows_text (h : ClearOfQuotes style) (hone : OneLine style)
    (hsmart : style.quoting = .smart) {rows : Rows} (hne : rows ≠ [])
    (hrows : ∀ row ∈ rows, row ≠ [])
    (hquotes : needsQuoting style.separator rows = true ∨
      ∀ row ∈ rows, ∀ cell ∈ row, cell.head? ≠ some Byte.quote) :
    readRows style (readCell style) (style.text rows) = some rows := by
  have hdecided : style.quotes rows = needsQuoting style.separator rows := by
    rw [TextStyle.quotes, hsmart]
  rw [readRows_eq_some_iff_written h]
  cases hneeds : needsQuoting style.separator rows with
  | true =>
      rw [text_of_quotes (hdecided.trans hneeds)]
      exact joined_quotedText hne hrows
  | false =>
      have hheads := hquotes.resolve_left (by simp [hneeds])
      rw [text_of_not_quotes (hdecided.trans hneeds)]
      refine joined_plainText hne hrows fun row hrow cell hcell => ⟨hheads row hrow cell hcell, ?_⟩
      exact hone.plainCell (needsQuoting_eq_false_iff.mp hneeds row hrow cell hcell)

theorem oneLine_of_singleton {b : UInt8} {lineEnd : Bytes}
    (hb : b ∉ [Byte.carriageReturn, Byte.lineFeed, Byte.quote]) (hline : lineEnd ∈ lineEnds) :
    OneLine ⟨[b], lineEnd, .smart⟩ := by
  simp only [List.mem_cons, List.not_mem_nil, or_false, not_or] at hb
  exact ⟨List.cons_ne_nil _ _, List.forall_mem_singleton.mpr ⟨hb.1, hb.2.1⟩, hline⟩

theorem clearOfQuotes_of_singleton {b : UInt8} {lineEnd : Bytes}
    (hb : b ∉ [Byte.carriageReturn, Byte.lineFeed, Byte.quote]) (hline : lineEnd ∈ lineEnds) :
    ClearOfQuotes ⟨[b], lineEnd, .smart⟩ where
  toClear := (oneLine_of_singleton hb hline).clear (unbordered_cons List.not_mem_nil)
  separator_head := by
    rintro ⟨⟩
    simp at hb
  lineSeparator_head := by
    intro hhead
    have hmem := List.mem_of_mem_head? hhead
    rcases mem_of_mem_lineEnds hline _ hmem with heq | heq <;> cases heq

/--
For a separator of one byte there is one reader of smart text. It reads each cell as
a quoted or as a plain one by its first byte, and it gets the table back if the table
was quoted or no cell in it begins with a quote.
-/
theorem smart_text_reads_back {b : UInt8} {lineEnd : Bytes}
    (hb : b ∉ [Byte.carriageReturn, Byte.lineFeed, Byte.quote]) (hline : lineEnd ∈ lineEnds) :
    let style : TextStyle := ⟨[b], lineEnd, .smart⟩
    (∀ text rows, readRows style (readCell style) text = some rows ↔
      Joined lineEnd (Joined [b] (WrittenCell style)) text rows) ∧
    ∀ rows : Rows, rows ≠ [] → (∀ row ∈ rows, row ≠ []) →
      (needsQuoting [b] rows = true ∨
        ∀ row ∈ rows, ∀ cell ∈ row, cell.head? ≠ some Byte.quote) →
      readRows style (readCell style) (style.text rows) = some rows := by
  intro style
  have hclear := clearOfQuotes_of_singleton hb hline
  refine ⟨fun _ _ => readRows_eq_some_iff_written hclear, fun rows hne hrows hquotes => ?_⟩
  exact readRows_text hclear (oneLine_of_singleton hb hline) rfl hne hrows hquotes

/-- A lone carriage return has all cells quoted; a quote within a cell has none. -/
theorem smart_text_reads_back_either_way :
    let style : TextStyle := ⟨[Byte.tab], [Byte.carriageReturn, Byte.lineFeed], .smart⟩
    let quoted : Rows := [[ascii "\"a", []], [[Byte.carriageReturn]]]
    let plain : Rows := [[[]], [ascii "a\"", []]]
    readRows style (readCell style) (style.text quoted) = some quoted ∧
      readRows style (readCell style) (style.text plain) = some plain := by
  intro style quoted plain
  have htab : Byte.tab ∉ [Byte.carriageReturn, Byte.lineFeed, Byte.quote] := by decide
  have hline : [Byte.carriageReturn, Byte.lineFeed] ∈ lineEnds := by decide
  have hboth := (smart_text_reads_back htab hline).2
  exact ⟨hboth quoted (by decide) (by decide) (Or.inl (by decide)),
    hboth plain (by decide) (by decide) (Or.inr (by decide))⟩

end JsonTable.DelimitedText
