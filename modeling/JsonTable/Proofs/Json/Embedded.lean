import JsonTable.Proofs.Json.Values

/-!
# Values within other texts

What is read from a position of a text is a value with blanks around it, and these bytes
determine the value. So neither what stands before the position nor what follows the value
has a part in reading it: the bytes can be cut out and put after any others.
-/

namespace JsonTable.Json

open Bytes

theorem exists_padded_of_readSpaced {text rest : Bytes} {d : Document}
    (h : readSpaced text = .ok (d, rest)) :
    ∃ used, text = used ++ rest ∧ Padded (ValueWithin (maxDepth + 1)) used d := by
  simp only [readSpaced, except_bind_eq_ok, Prod.exists] at h
  obtain ⟨_, after, hread, h⟩ := h
  cases h
  obtain ⟨used, rfl, hled⟩ := (readValue_reads _).sound hread
  obtain ⟨blanks, hblanks, hafter⟩ := exists_blank after
  exact ⟨used ++ blanks, by rw [List.append_assoc, ← hafter], hled.padded hblanks⟩

theorem readSpaced_of_padded {text : Bytes} {d : Document}
    (h : Padded (ValueWithin (maxDepth + 1)) text d) : readSpaced text = .ok (d, []) := by
  obtain ⟨blanks, hblanks, hread⟩ := h.exists_readValue_eq
  rw [readSpaced, except_bind_eq_ok]
  refine ⟨(d, blanks), hread, ?_⟩
  dsimp only
  rw [skipSpaces_eq_nil_iff.mpr hblanks]
  rfl

theorem readAt_eq_some_iff {report report' : Report} {start next : Nat} {d : Document} :
    Document.readAt report start = .ok (some (d, next), report') ↔
      (∃ rest, readSpaced (report.source.bytes.drop start) = .ok (d, rest) ∧
        next = report.source.size - rest.length) ∧ report' = report := by
  rw [Document.readAt_eq_settle, Report.settle_eq_some_iff, except_map_eq_ok]
  simp only [Prod.exists, Prod.mk.injEq]
  constructor
  · rintro ⟨⟨_, rest, hread, rfl, rfl⟩, hreport⟩
    exact ⟨⟨rest, hread, rfl⟩, hreport⟩
  · rintro ⟨⟨rest, hread, rfl⟩, hreport⟩
    exact ⟨⟨d, rest, hread, rfl, rfl⟩, hreport⟩

theorem padded_of_readAt {report report' : Report} {start next : Nat} {d : Document}
    (h : Document.readAt report start = .ok (some (d, next), report')) :
    Padded (ValueWithin (maxDepth + 1)) ((report.source.bytes.take next).drop start) d ∧
      ((report.source.bytes.take next).drop start).length = next - start := by
  obtain ⟨⟨rest, hread, rfl⟩, _⟩ := readAt_eq_some_iff.mp h
  obtain ⟨used, htext, hpadded⟩ := exists_padded_of_readSpaced hread
  have hlength := congrArg List.length htext
  rw [List.length_drop, List.length_append] at hlength
  have hused : report.source.size - rest.length - start = used.length := by
    rw [Source.size_eq]
    omega
  rw [List.drop_take, htext, hused, List.take_left]
  exact ⟨hpadded, rfl⟩

theorem readAt_of_padded {report : Report} {before text : Bytes} {d : Document}
    (hbytes : report.source.bytes = before ++ text)
    (h : Padded (ValueWithin (maxDepth + 1)) text d) :
    Document.readAt report before.length =
      .ok (some (d, before.length + text.length), report) := by
  refine readAt_eq_some_iff.mpr ⟨⟨[], ?_, ?_⟩, rfl⟩
  · rw [hbytes, List.drop_left]
    exact readSpaced_of_padded h
  · rw [Source.size_eq, hbytes, List.length_append, List.length_nil, Nat.sub_zero]

/--
A value read from a position of a text is read again from the bytes that it took, up to the
next position, wherever they are put: after any other bytes it is the same value, the
position after it is the end, and nothing is recorded. On their own they denote the value.
-/
theorem cut_out_value_reads_alike {report report' : Report} {start next : Nat}
    {document : Document}
    (h : Document.readAt report start = .ok (some (document, next), report')) :
    (∀ (before : Bytes) (embedding : Report),
      embedding.source.bytes = before ++ (report.source.bytes.take next).drop start →
        Document.readAt embedding before.length =
          .ok (some (document, before.length + (next - start)), embedding)) ∧
    Document.ofText ((report.source.bytes.take next).drop start) = .ok document := by
  obtain ⟨hpadded, hlength⟩ := padded_of_readAt h
  constructor
  · intro before embedding hbytes
    rw [readAt_of_padded hbytes hpadded, hlength]
  · rw [ofText_eq_ok_iff]
    obtain ⟨hvalue, hdepth⟩ := paddedWithin_iff.mp hpadded
    exact ⟨[], _, rfl, Or.inl rfl, hvalue, hdepth⟩

/-- A number that ends with the text it is put into, and before a comma where it is cut out. -/
theorem cut_out_number_reads_alike :
    let report := Report.ofBytes (ascii "[1, -0.5e3 ,x")
    let embedding := Report.ofBytes (ascii "\x7b\"k\"" ++ ascii " -0.5e3 ")
    Document.readAt report 3 = .ok (some (.number (ascii "-0.5e3"), 11), report) ∧
      Document.readAt embedding 4 = .ok (some (.number (ascii "-0.5e3"), 12), embedding) ∧
      Document.ofText (ascii " -0.5e3 ") = .ok (.number (ascii "-0.5e3")) := by
  intro report embedding
  have hread : Document.readAt report 3 =
      .ok (some (.number (ascii "-0.5e3"), 11), report) := by
    rw [Document.readAt_eq_settle]
    rfl
  obtain ⟨hembedded, halone⟩ := cut_out_value_reads_alike hread
  exact ⟨hread, hembedded (ascii "\x7b\"k\"") embedding rfl, halone⟩

end JsonTable.Json
