import JsonTable.Proofs.Faults
import JsonTable.Proofs.Places

/-!
# Excerpts

Whatever text a diagnostic is shown with, there is a line to show it in: a line begins no
later than at the end of its text, for positions past the end as well. So an excerpt never
asks for bytes beyond the end.

What stands under the line is as wide as the line, or one byte wider where the caret points
past it. The padding keeps the tabs of the line, so that the caret is under the first byte of
the range; the tildes go on to the last byte, or to the end of the line.
-/

namespace JsonTable

open Bytes

/-! ## Lines -/

/--
The line that begins at a position, without the bytes that end it: the newline, if the text does
not end before, and one carriage return in front of that end.
-/
def LineFrom (text : Bytes) (start : Nat) (line : Bytes) : Prop :=
  ∃ ending rest, text.drop start = line ++ ending ++ rest ∧ Byte.lineFeed ∉ line ∧
    (ending = [Byte.carriageReturn] ∨
      ending = [] ∧ line.getLast? ≠ some Byte.carriageReturn) ∧
    (rest = [] ∨ rest.head? = some Byte.lineFeed)

/-- Up to the newline that is found, or to the end, stands what comes before all newlines. -/
theorem Source.take_find? (text : Source) (start : Nat) :
    (text.bytes.drop start).take ((text.find? Byte.lineFeed start).getD text.size - start) =
      (text.bytes.drop start).takeWhile (· != Byte.lineFeed) := by
  have hfound : (text.find? Byte.lineFeed start).getD text.size - start =
      (text.bytes.drop start).findIdx (· == Byte.lineFeed) := by
    rw [find?, text.size_eq, List.findIdx_eq_getD_findIdx?, List.length_drop]
    cases (text.bytes.drop start).findIdx? (· == Byte.lineFeed) with
    | none => rfl
    | some offset => exact Nat.add_sub_cancel_left start offset
  rw [hfound, List.takeWhile_eq_take_findIdx_not]
  simp [bne]

namespace Diagnostic

theorem exists_lineAt (text : Source) (position : Nat) :
    ∃ line, lineAt text position = .ok line := by
  simp only [lineAt, Source.slice, if_pos (text.lineStart_le_size position), bind, Except.bind]
  exact ⟨_, rfl⟩

/-- What is shown of a line is all of it but its end. -/
theorem lineFrom_lineAt {text : Source} {position : Nat} {line : Bytes}
    (h : lineAt text position = .ok line) :
    LineFrom text.bytes (text.lineStart position) line := by
  have hstart := text.lineStart_le_size position
  simp only [lineAt, Source.slice, if_pos hstart, text.take_find?, bind, Except.bind,
    pure, Except.pure, Except.ok.injEq] at h
  generalize hwhole : (text.bytes.drop (text.lineStart position)).takeWhile
    (· != Byte.lineFeed) = whole at h
  generalize hrest : (text.bytes.drop (text.lineStart position)).dropWhile
    (· != Byte.lineFeed) = rest
  have hdrop : text.bytes.drop (text.lineStart position) = whole ++ rest := by
    rw [← hwhole, ← hrest, List.takeWhile_append_dropWhile]
  have hwholeFeed : Byte.lineFeed ∉ whole := by
    intro hmem
    rw [← hwhole] at hmem
    simpa using List.all_eq_true.mp List.all_takeWhile _ hmem
  have hrestFeed : rest = [] ∨ rest.head? = some Byte.lineFeed := by
    have hhead := List.head?_dropWhile_not (· != Byte.lineFeed)
      (text.bytes.drop (text.lineStart position))
    rw [hrest] at hhead
    cases rest with
    | nil => exact Or.inl rfl
    | cons b rest => exact Or.inr (congrArg some (by simpa using hhead))
  by_cases hreturn : whole.getLast? = some Byte.carriageReturn
  · obtain ⟨before, rfl⟩ := List.getLast?_eq_some_iff.mp hreturn
    rw [if_pos hreturn, List.dropLast_concat] at h
    subst h
    exact ⟨[Byte.carriageReturn], rest, hdrop,
      fun hmem => hwholeFeed (List.mem_append_left _ hmem), Or.inl rfl, hrestFeed⟩
  · rw [if_neg hreturn] at h
    rw [h] at hdrop hwholeFeed hreturn
    exact ⟨[], rest, by rw [hdrop, List.append_nil], hwholeFeed, Or.inr ⟨rfl, hreturn⟩, hrestFeed⟩

/-! ## Excerpts -/

theorem exists_withExcerpt (text : Source) (d : Diagnostic) :
    ∃ excerpt, d.withExcerpt text = .ok excerpt := by
  obtain ⟨line, hline⟩ := exists_lineAt text d.start
  simp only [withExcerpt, hline, bind, Except.bind]
  exact ⟨_, rfl⟩

/--
What stands under a line that begins at `lineStart`: a padding up to the first byte of the range
or the end of the line, a caret, and tildes.
-/
structure Marks (d : Diagnostic) (lineStart : Nat) (shown pad : Bytes) (tildes : Nat) : Prop where
  length_pad : pad.length = min (d.start - lineStart) shown.length
  tabs_kept : ∀ index < pad.length,
    pad[index]? = some (if shown[index]? = some Byte.tab then Byte.tab else Byte.space)
  width_le : pad.length + 1 + tildes ≤ shown.length + 1
  /-- A caret under a byte of the line is not followed by a tilde past the line. -/
  within_line : pad.length < shown.length → pad.length + 1 + tildes ≤ shown.length
  ends_at_stop : d.stop ≤ lineStart + shown.length →
    lineStart + (pad.length + 1 + tildes) = d.stop

theorem length_padding (line : Bytes) (width : Nat) :
    (padding line width).length = min width line.length := by
  rw [padding, List.length_map, List.length_take]

theorem getElem?_padding {shown : Bytes} {width index : Nat}
    (h : index < (padding shown width).length) :
    (padding shown width)[index]? =
      some (if shown[index]? = some Byte.tab then Byte.tab else Byte.space) := by
  rw [length_padding] at h
  have hindex : index < shown.length := by omega
  rw [padding, List.getElem?_map, List.getElem?_take_of_lt (by omega),
    List.getElem?_eq_getElem hindex, Option.map_some]
  simp only [Option.some.injEq]

theorem marks_padding {d : Diagnostic} {lineStart : Nat} (line : Bytes)
    (hstart : lineStart ≤ d.start) (hstop : d.start < d.stop) :
    d.Marks lineStart line (padding line (d.start - lineStart))
      (min d.stop (lineStart + line.length) - (d.start + 1)) := by
  have hlength := length_padding line (d.start - lineStart)
  exact ⟨hlength, fun _ => getElem?_padding, by omega, by omega, by omega⟩

/--
With this text there is an excerpt: it shows the line in which the range begins and, on the last
line, the marks under it.
-/
def UnderlinedIn (d : Diagnostic) (text : Source) : Prop :=
  ∃ lineStart line pad tildes lastLine,
    BeginsLine text.bytes d.start lineStart ∧ LineFrom text.bytes lineStart line ∧
    d.withExcerpt text = .ok (d.toBytes ++ ascii "\n  " ++ line ++ Byte.lineFeed :: lastLine) ∧
    Byte.lineFeed ∉ lastLine ∧
    lastLine = ascii "  " ++ pad ++ Byte.caret :: List.replicate tildes Byte.tilde ∧
    d.Marks lineStart line pad tildes

theorem lineFeed_notMem_padding (line : Bytes) (width : Nat) :
    Byte.lineFeed ∉ padding line width := by
  intro hmem
  obtain ⟨b, _, hb⟩ := List.mem_map.mp hmem
  split at hb
  · exact absurd hb (by decide)
  · exact absurd hb (by decide)

theorem underlinedIn {d : Diagnostic} (hstop : d.start < d.stop) (text : Source) :
    d.UnderlinedIn text := by
  obtain ⟨line, hline⟩ := exists_lineAt text d.start
  have hbegins := text.lineStart_begins d.start
  refine ⟨_, line, _, _, _, hbegins, lineFrom_lineAt hline, ?_, ?_, rfl,
    marks_padding line hbegins.le_position hstop⟩
  · simp only [withExcerpt, hline, bind, Except.bind, pure, Except.pure, underline]
    have hbreak : ascii "\n  " = Byte.lineFeed :: ascii "  " := rfl
    simp [hbreak]
  · have hpad := lineFeed_notMem_padding line (d.start - text.lineStart d.start)
    have hspaces : Byte.lineFeed ∉ ascii "  " := by decide
    have hmarks : Byte.lineFeed ≠ Byte.caret ∧ Byte.lineFeed ≠ Byte.tilde := by decide
    simp [hpad, hspaces, hmarks, List.mem_replicate]

section Making

variable {source : Source} {severity : Severity} {start stop : Nat} {message : Bytes}
  {d : Diagnostic}

theorem places_of_make (h : make source severity start stop message = .ok d) :
    source.place d.start = .ok d.first ∧
      source.place (min (d.stop - 1) source.size) = .ok d.last := by
  unfold make at h
  obtain ⟨first, hfirst, h⟩ := except_bind_eq_ok.mp h
  obtain ⟨last, hlast, h⟩ := except_bind_eq_ok.mp h
  cases h
  exact ⟨hfirst, hlast⟩

theorem first_le_last (h : make source severity start stop message = .ok d) :
    d.first ≤ d.last := by
  obtain ⟨hfirst, hlast⟩ := places_of_make h
  obtain ⟨_, hstart, hstop, _⟩ := make_eq_ok h
  have hsize := Source.le_size_of_place hfirst
  exact Source.place_le (by omega) hfirst hlast

end Making

end Diagnostic

namespace Report

/--
Past the end of the text nothing is recorded. About any other range, however far it is to go,
one more diagnostic is recorded: its range is not empty and its places are in order, and with
whatever text it is shown, the last line of the excerpt marks as much of the range as there is
in the line quoted.
-/
theorem recorded_range_is_underlined_in_line {severity : Severity}
    {note : Report → Nat → Nat → Bytes → Except Misuse Report}
    (hnote : (severity, note) ∈ [(.error, Report.error), (.warning, Report.warning)])
    (report : Report) (start stop : Nat) (message : Bytes) :
    (report.source.size < start →
      note report start stop message = .error (.placeOutOfRange start)) ∧
    (start ≤ report.source.size →
      ∃ d : Diagnostic, note report start stop message = .ok (report.add d) ∧
        d.severity = severity ∧ d.start = start ∧ d.stop = max stop (start + 1) ∧
        d.message = message ∧ report.source.place d.start = .ok d.first ∧
        report.source.place (min (d.stop - 1) report.source.size) = .ok d.last ∧
        d.first ≤ d.last ∧ ∀ text, d.UnderlinedIn text) := by
  obtain rfl : note = fun report => report.record severity := by
    cases List.mem_cons.mp hnote with
    | inl herror =>
        cases herror
        rfl
    | inr hwarning =>
        cases List.mem_singleton.mp hwarning
        rfl
  constructor
  · intro hpast
    exact record_past_end hpast severity stop message
  · intro hstart
    obtain ⟨d, hd⟩ := Diagnostic.exists_make hstart severity stop message
    obtain ⟨hseverity, hfirst, hstop, hmessage⟩ := Diagnostic.make_eq_ok hd
    obtain ⟨hplace, hlast⟩ := Diagnostic.places_of_make hd
    have hrecord : report.record severity start stop message = .ok (report.add d) := by
      rw [record, hd]
      rfl
    exact ⟨d, hrecord, hseverity, hfirst, hstop, hmessage, hplace, hlast,
      Diagnostic.first_le_last hd, Diagnostic.underlinedIn (by omega)⟩

/-- The range begins after a tab and goes beyond the end, where the second text has no bytes. -/
theorem recorded_range_is_underlined_in_line_after_tab :
    let report := ofBytes (ascii "ab\n\tcd\r\n")
    report.error 9 0 (ascii "m") = .error (.placeOutOfRange 9) ∧
    ∃ d : Diagnostic, report.warning 4 1000 (ascii "m") = .ok (report.add d) ∧
      d.stop = 1000 ∧ d.first = ⟨2, 2⟩ ∧ d.first ≤ d.last ∧
      d.UnderlinedIn report.source ∧ d.UnderlinedIn (.ofBytes (ascii "x")) := by
  intro report
  obtain ⟨hpast, _⟩ := recorded_range_is_underlined_in_line (.head _) report 9 0 (ascii "m")
  obtain ⟨_, hmade⟩ :=
    recorded_range_is_underlined_in_line (.tail _ (.head _)) report 4 1000 (ascii "m")
  obtain ⟨d, hd, _, hstart, hstop, _, hplace, _, hle, hunderlined⟩ := hmade (by decide)
  have hfirst : report.source.place 4 = .ok ⟨2, 2⟩ := Source.place_eq_after (by decide)
  rw [hstart, hfirst] at hplace
  exact ⟨hpast (by decide), d, hd, hstop, (Except.ok.inj hplace).symm, hle,
    hunderlined report.source, hunderlined _⟩

end Report

end JsonTable
