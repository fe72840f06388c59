import JsonTable.Proofs.Faults
import JsonTable.Proofs.Json.Values

/-!
# Where a JSON text is at fault

Every reader fails with a fault of the bytes it was given, and never with a
misuse: no place past the end is asked for, and the members of an object have
different keys before they are put together. So reading records exactly one
error, inside of the text, or it gives a value and says nothing.
-/

namespace JsonTable.Json

open Bytes

/-! ## Literals -/

/-- The digits read so far are those between the escape's letter and what is left. -/
theorem readHexDigits_faults {escape text : Bytes} {missing value : Nat}
    (h : escape.length + missing = text.length + 6) (hmissing : missing ≤ 4) :
    FaultsWithin escape.length (readHexDigits escape missing value text) := by
  induction missing generalizing value text with
  | zero => exact faultsWithin_ok _ _
  | succ missing ih =>
      cases text with
      | nil =>
          simp only [List.length_nil] at h
          exact faultsWithin_faultAt _ (Nat.le_refl _) (by omega)
      | cons b text =>
          simp only [List.length_cons] at h
          rw [readHexDigits]
          cases Byte.hexValue? b with
          | none => exact faultsWithin_faultAt _ (Nat.le_refl _) (by omega)
          | some digit => exact ih (by omega) (by omega)

theorem readPoint_faults {escape digits : Bytes} (h : escape.length = digits.length + 2) :
    FaultsWithin escape.length (readPoint escape digits) := by
  have hfirst : FaultsWithin escape.length (readHexDigits escape 4 0 digits) :=
    readHexDigits_faults (by omega) (Nat.le_refl _)
  refine hfirst.bind fun reading hhigh => ?_
  obtain ⟨high, rest⟩ := reading
  have hrest := length_readHexDigits hhigh
  dsimp only
  split
  · exact faultsWithin_faultAt _ (Nat.le_refl _) (by omega)
  · split
    · cases hafter : Bytes.after? [Byte.backslash, pointLetter] rest with
      | none => exact faultsWithin_faultAt _ (Nat.le_refl _) (by omega)
      | some lowDigits =>
          have hlength := congrArg List.length (Bytes.after?_eq_some_iff.mp hafter)
          simp only [List.length_append, List.length_cons, List.length_nil] at hlength
          have hsecond : FaultsWithin rest.length (readHexDigits rest 4 0 lowDigits) :=
            readHexDigits_faults (by omega) (Nat.le_refl _)
          refine (hsecond.mono (by omega)).bind fun reading hlow => ?_
          obtain ⟨low, after⟩ := reading
          have hafter := length_readHexDigits hlow
          dsimp only
          split
          · exact faultsWithin_ok _ _
          · exact faultsWithin_faultAt _ (Nat.le_refl _) (by omega)
    · exact faultsWithin_ok _ _

theorem readCharacter_faults {literal text : Bytes} (h : text.length ≤ literal.length) :
    FaultsWithin literal.length (readCharacter literal text) := by
  cases text with
  | nil => exact faultsWithin_faultToEnd _ (Nat.le_refl _)
  | cons b rest =>
      have hwidth : 1 ≤ (b :: rest).length + 1 := Nat.le_add_left _ _
      unfold readCharacter
      dsimp only
      split
      · exact faultsWithin_faultAt _ h hwidth
      split
      · exact faultsWithin_ok _ _
      cases rest with
      | nil => exact faultsWithin_faultToEnd _ (Nat.le_refl _)
      | cons letter after =>
          dsimp only
          split
          · have hpoint : FaultsWithin (b :: letter :: after).length
                (readPoint (b :: letter :: after) after) := readPoint_faults (by simp)
            exact (hpoint.mono h).bind fun _ _ => faultsWithin_ok _ _
          · cases shortEscape? letter with
            | some c => exact faultsWithin_ok _ _
            | none => exact faultsWithin_faultAt _ h (by simp)

theorem readCharacters_faults {literal text body : Bytes} (h : body.length ≤ literal.length) :
    FaultsWithin literal.length (readCharacters literal text body) := by
  fun_induction readCharacters literal text body with
  | case1 => exact faultsWithin_ok _ _
  | case2 text body _ failure hread =>
      have hcharacter := readCharacter_faults h
      rw [hread] at hcharacter
      exact faultsWithin_error (hcharacter failure rfl)
  | case3 text body _ character rest hread ih =>
      exact ih (Nat.le_trans (Nat.le_of_lt (length_readCharacter_lt hread)) h)

theorem readLiteral_faults (body : Bytes) :
    FaultsWithin (body.length + 1) (readLiteral body) := by
  have hbody : body.length ≤ (Byte.quote :: body).length := Nat.le_succ _
  exact readCharacters_faults hbody

/-! ## Numbers -/

theorem readInteger_faults (number : Bytes) :
    FaultsWithin number.length (readInteger number) := by
  rw [readInteger]
  generalize hsplit : splitSign (· == Byte.minus) number = split
  obtain ⟨sign, rest⟩ := split
  have hlength : number.length = sign.length + rest.length := by
    rw [(splitSign_sound hsplit).1, List.length_append]
  have hwidth : sign.length + 1 ≤ number.length + 1 := by omega
  cases rest with
  | nil => exact faultsWithin_faultAt _ (Nat.le_refl _) hwidth
  | cons b after =>
      dsimp only
      split
      · exact faultsWithin_ok _ _
      split
      · exact faultsWithin_ok _ _
      · exact faultsWithin_faultAt _ (Nat.le_refl _) hwidth

theorem readFraction_faults {number taken text : Bytes}
    (h : number.length = taken.length + text.length) :
    FaultsWithin number.length (readFraction number taken text) := by
  cases text with
  | nil => exact faultsWithin_ok _ _
  | cons b rest =>
      rw [readFraction]
      split
      · dsimp only
        split
        · exact faultsWithin_faultAt _ (Nat.le_refl _) (by omega)
        · exact faultsWithin_ok _ _
      · exact faultsWithin_ok _ _

theorem readExponent_faults {number taken text : Bytes}
    (h : number.length = taken.length + text.length) :
    FaultsWithin number.length (readExponent number taken text) := by
  cases text with
  | nil => exact faultsWithin_ok _ _
  | cons b rest =>
      rw [readExponent]
      split
      · generalize hsplit : splitSign (fun c => c == Byte.plus || c == Byte.minus) rest = split
        obtain ⟨sign, digits⟩ := split
        have hlength : rest.length = sign.length + digits.length := by
          rw [(splitSign_sound hsplit).1, List.length_append]
        dsimp only
        split
        · simp only [List.length_cons] at h
          exact faultsWithin_faultAt _ (Nat.le_refl _) (by omega)
        · exact faultsWithin_ok _ _
      · exact faultsWithin_ok _ _

theorem readNumber_faults (number : Bytes) : FaultsWithin number.length (readNumber number) := by
  refine (readInteger_faults number).bind fun reading hinteger => ?_
  obtain ⟨whole, afterWhole⟩ := reading
  obtain ⟨sign, digits, htext, hwhole, _, _⟩ := readInteger_sound hinteger
  have hlength : number.length = whole.length + afterWhole.length := by
    rw [htext, hwhole, List.length_append]
  refine (readFraction_faults hlength).bind fun reading hfraction => ?_
  obtain ⟨decimal, afterDecimal⟩ := reading
  obtain ⟨fraction, htext, hdecimal, _⟩ := readFraction_sound hfraction
  have hlength : number.length = decimal.length + afterDecimal.length := by
    rw [hdecimal, List.length_append, hlength, htext, List.length_append]
    omega
  refine (readExponent_faults hlength).bind fun reading hexponent => ?_
  obtain ⟨taken, rest⟩ := reading
  obtain ⟨exponent, htext, htaken, _⟩ := readExponent_sound hexponent
  have hwidth : taken.length + 1 ≤ number.length + 1 := by
    rw [htaken, List.length_append, hlength, htext, List.length_append]
    omega
  dsimp only
  split
  · exact faultsWithin_faultAt _ (Nat.le_refl _) hwidth
  · exact faultsWithin_ok _ _

/-! ## Sequences -/

theorem length_skipSpaces_le (text : Bytes) : (skipSpaces text).length ≤ text.length := by
  obtain ⟨blanks, _, htext⟩ := exists_blank text
  have hlength := congrArg List.length htext
  rw [List.length_append] at hlength
  omega

theorem Reads.length_le {α : Type} {read : Bytes → Reading (α × Bytes)}
    {Item : Bytes → α → Prop} (h : Reads read Item) {text rest : Bytes} {x : α}
    (hread : read text = .ok (x, rest)) : rest.length ≤ text.length := by
  obtain ⟨used, rfl, _⟩ := h.sound hread
  rw [List.length_append]
  omega

section Sequences

variable {α : Type} {enclosure : Enclosure} {opened : Bytes}
  {readItem : List α → Bytes → Reading (α × Bytes)} {Item : List α → Bytes → α → Prop}

theorem readItems_faults (hreads : ∀ done, Reads (readItem done) (Item done))
    (hitem : ∀ done text, text.length ≤ opened.length →
      FaultsWithin opened.length (readItem done text))
    {rounds : Nat} {done : List α} {text : Bytes} (h : text.length ≤ opened.length) :
    FaultsWithin opened.length (readItems enclosure opened readItem rounds done text) := by
  induction rounds generalizing done text with
  | zero => exact faultsWithin_faultToEnd _ (Nat.le_refl _)
  | succ rounds ih =>
      rw [readItems]
      refine (hitem done text h).bind fun reading hread => ?_
      obtain ⟨x, rest⟩ := reading
      have hrest := (hreads done).length_le hread
      have hskip := length_skipSpaces_le rest
      dsimp only
      cases hnext : skipSpaces rest with
      | nil => exact faultsWithin_faultToEnd _ (Nat.le_refl _)
      | cons b after =>
          rw [hnext] at hskip
          have hleft : (b :: after).length ≤ opened.length := by omega
          dsimp only
          split
          · exact faultsWithin_ok _ _
          split
          · exact ih (Nat.le_trans (Nat.le_succ _) hleft)
          · exact faultsWithin_faultAt _ hleft (by simp)

theorem readSequence_faults (hreads : ∀ done, Reads (readItem done) (Item done))
    (hitem : ∀ done text, text.length ≤ opened.length →
      FaultsWithin opened.length (readItem done text))
    {body : Bytes} (h : body.length ≤ opened.length) :
    FaultsWithin opened.length (readSequence enclosure opened readItem body) := by
  unfold readSequence
  split
  · exact faultsWithin_ok _ _
  · exact readItems_faults hreads hitem h

end Sequences

/-! ## Values -/

section Values

variable {readNested : Bytes → Reading (Document × Bytes)} {levels : Nat}

theorem readMember_faults (hnested : ∀ text, FaultsWithin text.length (readNested text))
    {opened text : Bytes} (members : Keyed Document) (h : text.length ≤ opened.length) :
    FaultsWithin opened.length (readMember readNested opened members text) := by
  have hskip := length_skipSpaces_le text
  unfold readMember
  cases hnext : skipSpaces text with
  | nil => exact faultsWithin_faultToEnd _ (Nat.le_refl _)
  | cons b body =>
      rw [hnext, List.length_cons] at hskip
      have hbody : (b :: body).length ≤ opened.length := by
        rw [List.length_cons]
        omega
      dsimp only
      split
      · exact faultsWithin_faultAt _ hbody (by simp)
      · refine ((readLiteral_faults body).mono hbody).bind fun reading hliteral => ?_
        obtain ⟨key, rest⟩ := reading
        obtain ⟨used, htext, _⟩ := readLiteral_sound hliteral
        have hlength := congrArg List.length htext
        rw [List.length_append, List.length_cons] at hlength
        have hblanks := length_skipSpaces_le rest
        dsimp only
        split
        · refine faultsWithin_faultAt _ hbody ?_
          rw [List.length_cons]
          omega
        · cases hcolon : Bytes.after? [Byte.colon] (skipSpaces rest) with
          | none => exact faultsWithin_faultAt _ (by omega) (Nat.le_add_left _ _)
          | some after =>
              have hafter := congrArg List.length (Bytes.after?_eq_some_iff.mp hcolon)
              rw [List.length_append] at hafter
              exact ((hnested after).mono (by omega)).bind fun _ _ => faultsWithin_ok _ _

/-- Members that were read have different keys, so that the object is always built. -/
theorem ofMembers_of_readSequence
    (hnested : Reads readNested (Led (ValueWithin levels))) {opened body rest : Bytes}
    {members : Keyed Document}
    (h : readSequence .object opened (readMember readNested opened) body = .ok (members, rest)) :
    ∃ object, Document.ofMembers members = .ok object := by
  obtain ⟨_, _, _, hadmitted⟩ :=
    readSequence_sound (readMember_reads hnested opened) Byte.openBrace h
  have hnodup := (admitted_freshKey_iff.mp hadmitted).1
  exact ⟨_, Document.ofMembers_eq_ok_iff.mpr
    ⟨hnodup, _, rfl, members.sort_perm, Keyed.ascending_sort hnodup⟩⟩

theorem readWord_faults (b : UInt8) (rest : Bytes) :
    FaultsWithin (b :: rest).length (readWord (b :: rest)) := by
  unfold readWord
  split
  · exact faultsWithin_ok _ _
  · exact faultsWithin_faultAt _ (Nat.le_refl _) (by simp)

theorem readBegun_faults (hnested : Reads readNested (Led (ValueWithin levels)))
    (hfaults : ∀ text, FaultsWithin text.length (readNested text)) (b : UInt8) (rest : Bytes) :
    FaultsWithin (b :: rest).length (readBegun readNested b rest) := by
  have hrest : rest.length ≤ (b :: rest).length := Nat.le_succ _
  unfold readBegun
  split
  · have hmembers : FaultsWithin (b :: rest).length
        (readSequence .object (b :: rest) (readMember readNested (b :: rest)) rest) :=
      readSequence_faults (readMember_reads hnested _)
        (fun done _ htext => readMember_faults hfaults done htext) hrest
    refine hmembers.bind fun reading hread => ?_
    obtain ⟨object, hobject⟩ := ofMembers_of_readSequence hnested hread
    dsimp only
    rw [hobject]
    exact faultsWithin_ok _ _
  split
  · have hitems : FaultsWithin (b :: rest).length
        (readSequence .array (b :: rest) (fun _ => readNested) rest) :=
      readSequence_faults (fun _ => hnested) (fun _ text htext => (hfaults text).mono htext) hrest
    exact hitems.bind fun _ _ => faultsWithin_ok _ _
  split
  · exact (readLiteral_faults rest).bind fun _ _ => faultsWithin_ok _ _
  split
  · exact (readNumber_faults (b :: rest)).bind fun _ _ => faultsWithin_ok _ _
  · exact readWord_faults b rest

/-- Each level of nesting adds its own faults to those of the level below. -/
theorem readValue_faults (levels : Nat) (text : Bytes) :
    FaultsWithin text.length (readValue levels text) := by
  induction levels generalizing text with
  | zero =>
      have hskip := length_skipSpaces_le text
      unfold readValue
      cases hnext : skipSpaces text with
      | nil => exact faultsWithin_faultAt _ (Nat.zero_le _) (Nat.le_refl _)
      | cons b rest =>
          rw [hnext] at hskip
          exact faultsWithin_faultAt _ hskip (Nat.le_add_left _ _)
  | succ levels ih =>
      have hskip := length_skipSpaces_le text
      unfold readValue
      cases hnext : skipSpaces text with
      | nil => exact faultsWithin_faultAt _ (Nat.zero_le _) (Nat.le_refl _)
      | cons b rest =>
          rw [hnext] at hskip
          exact (readBegun_faults (readValue_reads levels) ih b rest).mono hskip

end Values

theorem readSpaced_faults (text : Bytes) : FaultsWithin text.length (readSpaced text) :=
  (readValue_faults _ text).bind fun _ _ => faultsWithin_ok _ _

theorem readSpaced_sound {text rest : Bytes} {d : Document}
    (h : readSpaced text = .ok (d, rest)) :
    (∃ used, used ≠ [] ∧ text = used ++ rest) ∧
      ∀ b, rest.head? = some b →
        b ∉ [Byte.space, Byte.tab, Byte.lineFeed, Byte.carriageReturn] := by
  simp only [readSpaced, except_bind_eq_ok, Prod.exists] at h
  obtain ⟨_, after, hread, h⟩ := h
  cases h
  obtain ⟨used, rfl, hled⟩ := (readValue_reads _).sound hread
  obtain ⟨blanks, _, hafter⟩ := exists_blank after
  constructor
  · refine ⟨used ++ blanks, ?_, by rw [List.append_assoc, ← hafter]⟩
    cases hled with
    | after _ hvalue =>
        obtain ⟨b, tail, rfl, _⟩ := hvalue.1.exists_eq_cons
        simp
  · intro b hb hspace
    cases hskip : skipSpaces after with
    | nil => simp [hskip] at hb
    | cons c tail =>
        rw [hskip] at hb
        cases hb
        have hsolid := (skipSpaces_eq_cons_iff.mp hskip).1
        rw [isSpace_iff.mpr hspace] at hsolid
        cases hsolid

theorem readWhole_faults (text : Bytes) : FaultsWithin text.length (readWhole text) := by
  refine (readSpaced_faults text).bind fun reading hread => ?_
  obtain ⟨value, rest⟩ := reading
  obtain ⟨⟨used, _, htext⟩, _⟩ := readSpaced_sound hread
  have hlength := congrArg List.length htext
  rw [List.length_append] at hlength
  dsimp only
  split
  · exact faultsWithin_ok _ _
  · exact faultsWithin_faultAt _ (by omega) (Nat.le_add_left _ _)

/-! ## Reading with a report -/

theorem readAt_outcome {report : Report} {start : Nat} (h : start ≤ report.source.size) :
    (∃ document next, Document.readAt report start = .ok (some (document, next), report) ∧
        start < next ∧ next ≤ report.source.size ∧
        ∀ b, report.source.bytes[next]? = some b →
          b ∉ [Byte.space, Byte.tab, Byte.lineFeed, Byte.carriageReturn]) ∨
      ∃ error : Diagnostic, Document.readAt report start = .ok (none, report.add error) ∧
        error.ErrorWithin report.source.size := by
  have hlength : (report.source.bytes.drop start).length = report.source.size - start := by
    rw [List.length_drop, Source.size_eq]
  have hfaults := readSpaced_faults (report.source.bytes.drop start)
  rw [hlength] at hfaults
  have hsettle := Report.settle_outcome h
    (hfaults.map fun read => (read.1, report.source.size - read.2.length)) Cause.message
  rcases hsettle with ⟨reading, hmapped, hsettled⟩ | ⟨_, error, hsettled, herror⟩
  · left
    cases hread : readSpaced (report.source.bytes.drop start) with
    | error failure =>
        rw [hread] at hmapped
        cases hmapped
    | ok outcome =>
        obtain ⟨document, rest⟩ := outcome
        rw [hread] at hmapped
        cases hmapped
        obtain ⟨⟨used, hused, htext⟩, hsolid⟩ := readSpaced_sound hread
        have hpos : 0 < used.length := List.length_pos_iff.mpr hused
        have htotal : report.source.size - start = used.length + rest.length := by
          rw [← hlength, htext, List.length_append]
        have hnext : report.source.size - rest.length = start + used.length := by omega
        refine ⟨document, report.source.size - rest.length,
          (Document.readAt_eq_settle report start).trans hsettled, by omega, by omega,
          fun b hb => hsolid b ?_⟩
        -- The bytes from the position on are those that reading left over.
        have hrest : report.source.bytes.drop (start + used.length) = rest := by
          rw [← List.drop_drop, htext, List.drop_left]
        rw [← hrest, List.head?_drop, ← hnext]
        exact hb
  · exact Or.inr ⟨error, (Document.readAt_eq_settle report start).trans hsettled, herror⟩

/-- A text is read from its start on, or from after its byte order mark. -/
theorem exists_read_eq (report : Report) :
    ∃ mark body, report.source.bytes = mark ++ body ∧ (mark = [] ∨ mark = [0xef, 0xbb, 0xbf]) ∧
      Document.read report = report.settle mark.length Cause.message (readWhole body) := by
  rw [Document.read_eq_settle]
  cases hmark : Bytes.after? Utf8.byteOrderMark report.source.bytes with
  | none => exact ⟨[], _, rfl, Or.inl rfl, rfl⟩
  | some body => exact ⟨_, body, Bytes.after?_eq_some_iff.mp hmark, Or.inr rfl, rfl⟩

theorem read_outcome (report : Report) :
    (∃ document, Document.read report = .ok (some document, report)) ∨
      ∃ error : Diagnostic, Document.read report = .ok (none, report.add error) ∧
        error.ErrorWithin report.source.size := by
  obtain ⟨mark, body, hbytes, _, hread⟩ := exists_read_eq report
  have hsize : report.source.size = mark.length + body.length := by
    rw [Source.size_eq, hbytes, List.length_append]
  have hfaults : FaultsWithin (report.source.size - mark.length) (readWhole body) :=
    (readWhole_faults body).mono (by omega)
  rw [hread]
  rcases Report.settle_outcome (by omega) hfaults Cause.message with
    ⟨document, _, hsettled⟩ | ⟨_, error, hsettled, herror⟩
  · exact Or.inl ⟨document, hsettled⟩
  · exact Or.inr ⟨error, hsettled, herror⟩

theorem ofText_of_refused {text : Bytes} {error : Diagnostic}
    (hread : Document.read (.ofBytes text) = .ok (none, (Report.ofBytes text).add error))
    (herror : error.severity = .error) : Document.ofText text = .error (.rejected error) := by
  rw [Document.ofText, hread]
  simp only [Report.firstError?_add herror]

/--
Reading from a position of the text gives a value and leaves the report alone,
with the position of the end or of a byte that is not blank, or it adds one error
to the report. It is a misuse only from past the end, where no diagnostic can
begin, and then gives no report. A whole text is read or adds one error in the
same way, and without a report the refusal has the error and its words.
-/
theorem reads_or_reports_once (report : Report) :
    (∀ start ≤ report.source.size,
      (∃ document next, Document.readAt report start = .ok (some (document, next), report) ∧
          start < next ∧ next ≤ report.source.size ∧
          ∀ b, report.source.bytes[next]? = some b →
            b ∉ [Byte.space, Byte.tab, Byte.lineFeed, Byte.carriageReturn]) ∨
        ∃ error : Diagnostic, Document.readAt report start = .ok (none, report.add error) ∧
          error.ErrorWithin report.source.size) ∧
    (∀ start > report.source.size,
      Document.readAt report start = .error (.placeOutOfRange start) ∧
        ∀ severity stop message,
          report.record severity start stop message = .error (.placeOutOfRange start)) ∧
    ((∃ document, Document.read report = .ok (some document, report)) ∨
      ∃ error : Diagnostic, Document.read report = .ok (none, report.add error) ∧
        error.ErrorWithin report.source.size) ∧
    ∀ text,
      (∃ document, Document.read (.ofBytes text) = .ok (some document, .ofBytes text) ∧
          Document.ofText text = .ok document) ∨
        ∃ error : Diagnostic,
          Document.read (.ofBytes text) = .ok (none, (Report.ofBytes text).add error) ∧
            Document.ofText text = .error (.rejected error) ∧
            (Refusal.rejected error).message = error.toBytes := by
  refine ⟨fun start hstart => readAt_outcome hstart, fun start hstart => ?_,
    read_outcome report, fun text => ?_⟩
  · have hdrop : report.source.bytes.drop start = [] :=
      List.drop_eq_nil_of_le (report.source.size_eq ▸ Nat.le_of_lt hstart)
    have hposition : report.positionOf start 0 = start := by
      unfold Report.positionOf
      omega
    have hrecord := Report.record_past_end hstart
    have hread : readSpaced [] = .error (faultAt [] 1 .expectedValue) := rfl
    refine ⟨?_, hrecord⟩
    rw [Document.readAt_eq_settle, hdrop, hread]
    simp only [Except.map, faultAt, List.length_nil, Report.settle, hposition, Report.error,
      hrecord]
    rfl
  · rcases read_outcome (.ofBytes text) with ⟨document, hread⟩ | ⟨error, hread, herror⟩
    · exact Or.inl ⟨document, hread, ofText_eq_ok_iff.mpr (read_eq_some_iff.mp hread).1⟩
    · exact Or.inr ⟨error, hread, ofText_of_refused hread herror.severity_eq, rfl⟩

/-- At the end of a text that is cut off there is no value, and past it there is nothing at all. -/
theorem readAt_end_of_unfinished_array :
    (∃ error : Diagnostic, Document.readAt (.ofBytes (ascii "[1,")) 3 =
        .ok (none, (Report.ofBytes (ascii "[1,")).add error) ∧ error.ErrorWithin 3) ∧
      Document.readAt (.ofBytes (ascii "[1,")) 4 = .error (.placeOutOfRange 4) := by
  obtain ⟨hinside, hpast, _⟩ := reads_or_reports_once (.ofBytes (ascii "[1,"))
  have hend : (Report.ofBytes (ascii "[1,")).source.size = 3 := rfl
  refine ⟨?_, (hpast 4 (by decide)).1⟩
  rcases hinside 3 (by decide) with ⟨_, next, _, hlt, hle, _⟩ | herror
  · omega
  · exact herror

end JsonTable.Json
