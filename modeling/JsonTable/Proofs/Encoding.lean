import JsonTable.Proofs.DelimitedText.Quoting
import JsonTable.Proofs.Json.Encoding
import JsonTable.Proofs.Reach

/-!
# Tables in UTF-8

A table made from a document that was read from well-formed UTF-8 is well-formed: its
cells show parts of the document, as they are or printed, and writing the table as
text adds quotes and separators only.
-/

namespace JsonTable

open Bytes Utf8 Json

theorem Json.AllTexts.partOf {P : Bytes → Prop} {part whole : Document} (h : AllTexts P whole)
    (hpart : part.PartOf whole) : AllTexts P part := by
  intro level x hx
  obtain ⟨depth, hlocated⟩ := Document.PartOf.trans ⟨level, hx⟩ hpart
  exact h depth x hlocated

/-! ## Cells -/

theorem wellFormed_cellText {value : Document} {text : Bytes} (h : AllTexts WellFormed value)
    (htext : value.cellText = .ok text) : WellFormed text := by
  cases value with
  | string => exact Except.ok.inj htext ▸ h 0 _ .top
  | number => exact Except.ok.inj htext ▸ h 0 _ .top
  | bool value =>
      rw [← Except.ok.inj htext]
      cases value <;> exact Ascii.wellFormed (by decide)
  | array => exact Except.ok.inj htext ▸ wellFormed_print _ .compact h
  | object => exact Except.ok.inj htext ▸ wellFormed_print _ .compact h
  | null => cases htext
  | invalid => cases htext

theorem wellFormed_of_mem_extract {program : Program} {document : Document}
    (hnull : WellFormed program.options.nullText) (h : AllTexts WellFormed document) :
    ∀ row ∈ (program.extract document).value, ∀ cell ∈ row, WellFormed cell := by
  intro row hrow cell hcell
  rcases program.cell_of_mem_extract hrow hcell with rfl | ⟨value, hpart, htext⟩
  · exact hnull
  · exact wellFormed_cellText (h.partOf hpart) htext

/-! ## Texts -/

theorem wellFormed_quoteCell {cell : Bytes} (h : WellFormed cell) :
    WellFormed (quoteCell cell) := by
  have hquote : Byte.quote < 0x80 := by decide
  have hdoubled : WellFormed (DelimitedText.doubleQuotes cell) := by
    refine h.flatMap (fun b hb => ?_) fun b hb => if_neg fun heq => ?_
    · split
      · exact Ascii.wellFormed (by decide)
      · exact wellFormed_singleton hb
    · exact absurd (heq ▸ hb) (UInt8.not_le.mpr hquote)
  exact ((wellFormed_cons_iff hquote).mpr hdoubled).append (wellFormed_singleton hquote)

theorem wellFormed_text {style : TextStyle} (hseparator : WellFormed style.separator)
    (hline : WellFormed style.lineSeparator) {rows : Rows}
    (hrows : ∀ row ∈ rows, ∀ cell ∈ row, WellFormed cell) : WellFormed (style.text rows) := by
  refine hline.intercalate _ (List.forall_mem_map.mpr fun row hrow => ?_)
  refine hseparator.intercalate _ ?_
  split
  · exact List.forall_mem_map.mpr fun cell hcell => wellFormed_quoteCell (hrows row hrow cell hcell)
  · exact hrows row hrow

/--
What is read from a well-formed text has well-formed strings, keys and numbers, however
they were spelled. Every program that has a well-formed text for gaps makes a table of
well-formed cells from it, and well-formed separators make the table a well-formed text.
-/
theorem well_formed_text_gives_well_formed_table {text : Bytes} {document : Document}
    (htext : WellFormed text) (hread : Document.ofText text = .ok document) :
    (∀ level x, Located document level x → x.OwnTexts WellFormed) ∧
    ∀ program : Program, WellFormed program.options.nullText →
      ∃ rows : Traced Rows, program.extractText text = .ok rows ∧
        (∀ row ∈ rows.value, ∀ cell ∈ row, WellFormed cell) ∧
        ∀ style : TextStyle, WellFormed style.separator → WellFormed style.lineSeparator →
          WellFormed (style.text rows.value) := by
  have hdocument := allTexts_of_ofText hread htext
  refine ⟨hdocument, fun program hnull => ?_⟩
  have hcells := wellFormed_of_mem_extract hnull hdocument
  refine ⟨program.extract document, ?_, hcells, fun style hseparator hline => ?_⟩
  · rw [Program.extractText, hread]
    rfl
  · exact wellFormed_text hseparator hline hcells

/--
A raw character in a key, an escaped pair of surrogates and a raw character in a string,
shown in a printed array.
-/
theorem well_formed_text_gives_well_formed_table_of_escapes :
    let text := encodeAll "\x7b\"é\":[\"\\ud83d\\uDE00€\"]\x7d".toList
    let document : Document := .object [(encodeAll ['é'], .array [.string (encodeAll ['😀', '€'])])]
    let program : Program := ⟨[], { nullText := encodeAll ['∅'] }, [⟨[], encodeAll ['é']⟩], [], []⟩
    WellFormed text ∧ Document.ofText text = .ok document ∧ document.OwnTexts WellFormed ∧
      ∃ rows : Traced Rows, program.extractText text = .ok rows ∧
        WellFormed (TextStyle.text ⟨ascii ";", ascii "\n", .always⟩ rows.value) := by
  intro text document program
  have htext : WellFormed text := ⟨_, rfl⟩
  have hread : Document.ofText text = .ok document := by
    have hvalue : (Document.ofText text).toOption = some document := by decide +kernel
    cases hresult : Document.ofText text with
    | error refusal => rw [hresult] at hvalue; cases hvalue
    | ok read => rw [hresult] at hvalue; exact congrArg _ (Option.some.inj hvalue)
  have hnull : WellFormed program.options.nullText := ⟨_, rfl⟩
  have hascii : Ascii (ascii ";") ∧ Ascii (ascii "\n") := by decide
  obtain ⟨hdocument, hprograms⟩ := well_formed_text_gives_well_formed_table htext hread
  obtain ⟨rows, hrows, _, hrowsText⟩ := hprograms program hnull
  exact ⟨htext, hread, hdocument 0 _ .top, rows, hrows,
    hrowsText _ hascii.1.wellFormed hascii.2.wellFormed⟩

end JsonTable
