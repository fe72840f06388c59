import JsonTable.Proofs.CommandLine.Abbreviations
import JsonTable.Proofs.CommandLine.Outcomes

/-!
# Formats in files

A format that is kept in a file is compiled as it stands there. So a run that is given the name
of the file is the run that is given the format itself, and without such a file there is no run
to speak of. This is said of names that are not empty, since an empty one is taken for no name
at all.
-/

namespace JsonTable.CommandLine

open Bytes

/-- What is read under a name: the standard input under a hyphen, or else what a file has. -/
def Surroundings.Holds (surroundings : Surroundings) (name contents : Bytes) : Prop :=
  if name = standardInputName then
    surroundings.inputBroken = false ∧ contents = surroundings.standardInput
  else surroundings.file name = .contents contents

theorem readFile_eq_ok_iff {surroundings : Surroundings} {name contents : Bytes} :
    readFile surroundings surroundings.standardInput name = .ok contents ↔
      surroundings.Holds name contents := by
  unfold readFile Surroundings.Holds
  split
  · cases surroundings.inputBroken <;> simp [eq_comm]
  · cases surroundings.file name <;> simp

/-! ## Another format for the same request -/

def Request.withFormat (source : FormatSource) (request : Request) : Request :=
  { request with format := some source }

def Invocation.withFormat (source : FormatSource) (invocation : Invocation) : Invocation :=
  { invocation with format := source }

section Requests

variable {request next : Request} {given : FormatSource} (source : FormatSource)

theorem Request.take_withFormat (hgiven : request.format = some given) {entry : Entry}
    (h : request.take entry = .ok next) :
    next.format = some given ∧
      (request.withFormat source).take entry = .ok (next.withFormat source) := by
  cases entry with
  | operand word =>
      cases h
      exact ⟨hgiven, rfl⟩
  | flag flag written argument =>
      cases flag with
      | format => simp [take, setFormat, hgiven] at h
      | formatFile => simp [take, setFormat, hgiven] at h
      | quote =>
          simp only [take] at h ⊢
          cases hquoting : Quoting.ofName? argument with
          | none => simp [hquoting] at h
          | some quoting =>
              simp only [hquoting] at h
              cases h
              exact ⟨hgiven, rfl⟩
      | help => cases h
      | _ =>
          cases h
          exact ⟨hgiven, rfl⟩

theorem Request.foldlM_withFormat (hgiven : request.format = some given) {entries : List Entry}
    (h : entries.foldlM Request.take request = .ok next) :
    next.format = some given ∧
      entries.foldlM Request.take (request.withFormat source) = .ok (next.withFormat source) := by
  induction entries generalizing request with
  | nil =>
      cases h
      exact ⟨hgiven, rfl⟩
  | cons entry entries ih =>
      rw [List.foldlM_cons] at h ⊢
      obtain ⟨middle, htake, hrest⟩ := except_bind_eq_ok.mp h
      obtain ⟨hmiddle, htake'⟩ := take_withFormat source hgiven htake
      rw [htake']
      exact ih hmiddle hrest

theorem Request.finish_withFormat (hgiven : request.format = some given)
    {invocation : Invocation} (h : request.finish = .ok invocation) :
    invocation.format = given ∧
      (request.withFormat source).finish = .ok (invocation.withFormat source) := by
  obtain ⟨format?, operands, header, options, style⟩ := request
  obtain rfl : format? = some given := hgiven
  cases operands with
  | nil =>
      cases h
      exact ⟨rfl, rfl⟩
  | cons word words =>
      cases words with
      | nil =>
          cases h
          exact ⟨rfl, rfl⟩
      | cons next words => cases h

end Requests

/-! ## A file in place of a format -/

section Runs

variable {surroundings : Surroundings} {invocation : Invocation} {name : Bytes}

theorem Invocation.formatName?_of_file (hfile : invocation.format = .file name)
    (hname : name ≠ []) : invocation.formatName? = some name := by
  simp [formatName?, hfile, hname]

theorem Invocation.formatText_of_file (hfile : invocation.format = .file name)
    (hname : name ≠ []) :
    invocation.formatText surroundings =
      readFile surroundings surroundings.standardInput name := by
  simp [formatText, formatName?_of_file hfile hname]

/-- The run with the format that a file has is the run with the file. The standard input is
another matter, since the document is no longer there once it was read as a format. -/
theorem Invocation.run_withFormat_contents (hfile : invocation.format = .file name)
    (hname : name ≠ []) (hinput : name ≠ standardInputName) {contents : Bytes}
    (hholds : surroundings.Holds name contents) :
    (invocation.withFormat (.text contents)).run surroundings = invocation.run surroundings := by
  have hformat : invocation.formatText surroundings = .ok contents :=
    (formatText_of_file hfile hname).trans (readFile_eq_ok_iff.mpr hholds)
  have hinputText : (invocation.withFormat (.text contents)).inputText surroundings =
      invocation.inputText surroundings := by
    have hnone : (invocation.withFormat (.text contents)).formatName? = none := rfl
    simp only [inputText, formatName?_of_file hfile hname, hnone, reduceCtorEq, Option.some.injEq,
      if_neg hinput, if_false]
    rfl
  have hprogram (log : Bytes) (program : Program) :
      (invocation.withFormat (.text contents)).runProgram surroundings log program =
        invocation.runProgram surroundings log program := by
    unfold runProgram
    rw [hinputText]
    rfl
  have hformat' : (invocation.withFormat (.text contents)).formatText surroundings =
      .ok contents := rfl
  unfold run
  rw [hformat, hformat']
  simp only [hprogram]
  rfl

theorem Invocation.run_of_unreadable (hfile : invocation.format = .file name)
    (hname : name ≠ []) (hnone : ∀ contents, ¬ surroundings.Holds name contents) :
    ∃ errors, invocation.run surroundings = .ok ⟨statusFailure, [], errors⟩ := by
  cases hread : readFile surroundings surroundings.standardInput name with
  | ok contents => exact absurd (readFile_eq_ok_iff.mp hread) (hnone contents)
  | error error =>
      refine ⟨(failed [] error).errors, ?_⟩
      rw [run, formatText_of_file hfile hname, hread]
      rfl

end Runs

/-! ## The words that give the name -/

/-- The two ways to give a flag its argument. -/
inductive Flag.Gives (flag : Flag) (argument : Bytes) : List Bytes → Prop where
  | joined : Flag.Gives flag argument [flag.withArgument argument]
  | apart : Flag.Gives flag argument [flag.written, argument]

section Words

variable {operandsEndFlags : Bool} {flag : Flag} {argument : Bytes} {option : List Bytes}

theorem Flag.Gives.scan_eq (h : flag.Gives argument option) (htakes : flag.takesArgument = true) :
    Expected.scan operandsEndFlags .entry option =
      ([.flag flag flag.name argument], .entry) := by
  cases h with
  | joined => simp [Expected.scan, Expected.step, Expected.ofWord_withArgument _ htakes]
  | apart => simp [Expected.scan, Expected.step, Expected.ofWord_written, htakes]

theorem Flag.Gives.expected_eq_entry (h : flag.Gives argument option)
    (htakes : flag.takesArgument = true) {before : List Bytes}
    (hread : entries operandsEndFlags (before ++ option) =
      ((entries operandsEndFlags before).1 ++ [.flag flag flag.name argument], none)) :
    (Expected.scan operandsEndFlags .entry before).2 = .entry := by
  simp only [entries_eq_scan, Expected.scan_append, Prod.mk.injEq, List.append_cancel_left_eq]
    at hread
  obtain ⟨hentries, herror⟩ := hread
  cases hexpected : (Expected.scan operandsEndFlags .entry before).2 with
  | entry => rfl
  | argument waiting written =>
      rw [hexpected] at hentries herror
      cases h with
      | joined =>
          have hlength := congrArg List.length (Entry.flag.inj (List.cons.inj hentries).1).2.2
          simp [Flag.withArgument] at hlength
          omega
      | apart =>
          have hsame := (Entry.flag.inj (List.cons.inj hentries).1).2.2
          rw [← hsame] at herror
          simp [Expected.scan, Expected.step, Expected.ofWord_written, htakes,
            Expected.error?] at herror
  | operand =>
      rw [hexpected] at hentries
      cases h <;> simp [Expected.scan, Expected.step] at hentries
  | nothing error =>
      rw [hexpected] at hentries
      cases h <;> simp [Expected.scan, Expected.step] at hentries

theorem findUnknownFlag?_replace {before more more' : List Bytes}
    (h : findUnknownFlag? (before ++ more) = none)
    (hmore : findUnknownFlag? more = none → findUnknownFlag? more' = none) :
    findUnknownFlag? (before ++ more') = none := by
  induction before with
  | nil => exact hmore h
  | cons word before ih =>
      rw [List.cons_append, findUnknownFlag?_cons] at h ⊢
      by_cases hword : word = hyphens
      · rw [if_pos hword]
      · rw [if_neg hword] at h ⊢
        cases hunknown : isUnknownFlag word with
        | true => simp [hunknown] at h
        | false =>
            simp only [hunknown, Bool.false_eq_true, if_false] at h ⊢
            exact ih h

theorem Flag.Gives.findUnknownFlag?_eq_none (h : flag.Gives argument option)
    {after : List Bytes}
    (hhidden : option = [flag.written, hyphens] → findUnknownFlag? after = none)
    (hchecked : findUnknownFlag? (option ++ after) = none) : findUnknownFlag? after = none := by
  cases h with
  | joined =>
      simpa [findUnknownFlag?_cons, flag.withArgument_ne_hyphens, isUnknownFlag_withArgument]
        using hchecked
  | apart =>
      by_cases hargument : argument = hyphens
      · exact hhidden (by rw [hargument])
      · simp only [List.cons_append, List.nil_append, findUnknownFlag?_cons,
          flag.written_ne_hyphens, if_false, isUnknownFlag_written, hargument,
          Bool.false_eq_true] at hchecked
        split at hchecked
        · cases hchecked
        · exact hchecked

end Words

section Options

variable {surroundings : Surroundings} {before option after : List Bytes} {name : Bytes}
  {invocation : Invocation}

theorem parse_with_format_in_place (hgives : Flag.formatFile.Gives name option)
    (hread : entries (operandsEndFlags surroundings) (before ++ option) =
      ((entries (operandsEndFlags surroundings) before).1 ++
        [.flag .formatFile Flag.formatFile.name name], none))
    (hparse : parse surroundings (before ++ option ++ after) = .ok invocation) :
    invocation.format = .file name ∧
      ((option = [Flag.formatFile.written, hyphens] → findUnknownFlag? after = none) →
        ∀ format, parse surroundings (before ++ Flag.format.withArgument format :: after) =
          .ok (invocation.withFormat (.text format))) := by
  obtain ⟨hchecked, herror, request, hrequest, hfinish⟩ := parseWords_eq_ok_iff.mp hparse
  have hexpected := hgives.expected_eq_entry rfl hread
  rw [List.append_assoc] at hchecked herror hrequest
  simp only [entries_eq_scan, Expected.scan_append, hexpected, hgives.scan_eq rfl]
    at herror hrequest
  -- The entries before set no format, as only one may be set.
  rw [List.foldlM_append, except_bind_eq_ok] at hrequest
  obtain ⟨start, hstart, hrest⟩ := hrequest
  rw [List.singleton_append, List.foldlM_cons, except_bind_eq_ok] at hrest
  obtain ⟨next, htake, hrest⟩ := hrest
  have hnext : start.format = none ∧ next = start.withFormat (.file name) := by
    simp only [Request.take, Request.setFormat] at htake
    cases hformat : start.format with
    | none =>
        rw [hformat] at htake
        exact ⟨rfl, (Except.ok.inj htake).symm⟩
    | some source => simp [hformat] at htake
  obtain ⟨hnone, rfl⟩ := hnext
  have hgiven : (start.withFormat (.file name)).format = some (.file name) := rfl
  have hfile := (Request.foldlM_withFormat (.file name) hgiven hrest).1
  refine ⟨(Request.finish_withFormat (.file name) hfile hfinish).1, fun hhidden format => ?_⟩
  obtain ⟨_, hrest'⟩ := Request.foldlM_withFormat (.text format) hgiven hrest
  obtain ⟨_, hfinish'⟩ := Request.finish_withFormat (.text format) hfile hfinish
  have hstep : Expected.step (operandsEndFlags surroundings) .entry
      (Flag.format.withArgument format) =
        ([.flag .format Flag.format.name format], .entry) :=
    Expected.ofWord_withArgument _ rfl format
  have htake' : start.take (.flag .format Flag.format.name format) =
      .ok (start.withFormat (.text format)) := by
    simp [Request.take, Request.setFormat, hnone, Request.withFormat]
  refine parseWords_eq_ok_iff.mpr ⟨?_, ?_, request.withFormat (.text format), ?_, hfinish'⟩
  · refine findUnknownFlag?_replace hchecked fun hmore => ?_
    rw [findUnknownFlag?_cons, if_neg (Flag.withArgument_ne_hyphens _ _),
      isUnknownFlag_withArgument]
    exact hgives.findUnknownFlag?_eq_none hhidden hmore
  · simp only [entries_eq_scan, Expected.scan_append, hexpected, Expected.scan, hstep]
    exact herror
  · simp only [entries_eq_scan, Expected.scan_append, hexpected, Expected.scan, hstep]
    rw [List.foldlM_append, except_bind_eq_ok]
    refine ⟨start, hstart, ?_⟩
    rw [List.singleton_append, List.foldlM_cons, except_bind_eq_ok]
    exact ⟨_, htake', hrest'⟩

/--
A name that is not empty stands for what it holds. What is compiled is the contents of the file,
or of the standard input, and the run is the one with these contents given as the format; only
the standard input cannot be had twice, and a name `--` in a word of its own hides the words
after it from the check of flags. Without a readable file the run fails and prints nothing.
-/
theorem format_file_stands_for_its_contents (hname : name ≠ [])
    (hgives : Flag.formatFile.Gives name option)
    (hread : entries (operandsEndFlags surroundings) (before ++ option) =
      ((entries (operandsEndFlags surroundings) before).1 ++
        [.flag .formatFile Flag.formatFile.name name], none))
    (hparse : parse surroundings (before ++ option ++ after) = .ok invocation) :
    invocation.format = .file name ∧
      (∀ contents, surroundings.Holds name contents →
        invocation.formatText surroundings = .ok contents ∧
          (name ≠ standardInputName →
            (option = [Flag.formatFile.written, hyphens] → findUnknownFlag? after = none) →
            run surroundings (before ++ Flag.format.withArgument contents :: after) =
              run surroundings (before ++ option ++ after))) ∧
      ((∀ contents, ¬ surroundings.Holds name contents) →
        ∃ errors, run surroundings (before ++ option ++ after) =
          .ok ⟨statusFailure, [], errors⟩) := by
  obtain ⟨hfile, hinPlace⟩ := parse_with_format_in_place hgives hread hparse
  have hrun : run surroundings (before ++ option ++ after) = invocation.run surroundings := by
    rw [run, hparse]
  refine ⟨hfile, fun contents hholds => ⟨?_, fun hinput hhidden => ?_⟩, fun hnone => ?_⟩
  · exact (Invocation.formatText_of_file hfile hname).trans (readFile_eq_ok_iff.mpr hholds)
  · rw [hrun, run, hinPlace hhidden contents]
    exact Invocation.run_withFormat_contents hfile hname hinput hholds
  · rw [hrun]
    exact Invocation.run_of_unreadable hfile hname hnone

end Options

def filedFormat : Surroundings :=
  { bareSurroundings with
    file := fun name =>
      if name = ascii "columns" then .contents (ascii "\"a\" # b") else .absent }

/-- The header is `--`, which does not end the flags. -/
theorem format_file_stands_for_its_contents_after_header :
    let before := [ascii "--header", hyphens]
    let option := [ascii "--format-file", ascii "columns"]
    let after := [ascii "--debug", ascii "-"]
    run filedFormat (before ++ ascii "--format=\"a\" # b" :: after) =
        run filedFormat (before ++ option ++ after) ∧
      ∃ errors, run bareSurroundings (before ++ option ++ after) =
        .ok ⟨statusFailure, [], errors⟩ := by
  intro before option after
  obtain ⟨_, hheld, _⟩ := @format_file_stands_for_its_contents filedFormat before option after
    (ascii "columns") _ (by decide) .apart rfl rfl
  obtain ⟨_, _, hnone⟩ := @format_file_stands_for_its_contents bareSurroundings before option
    after (ascii "columns") _ (by decide) .apart rfl rfl
  refine ⟨(hheld (ascii "\"a\" # b") rfl).2 (by decide) (fun _ => rfl), hnone fun contents => ?_⟩
  exact fun hholds => FileState.noConfusion hholds

/-- An empty name is taken for no name, and an empty format is compiled. -/
theorem empty_format_file_name_is_no_failure :
    (∀ contents, ¬ bareSurroundings.Holds [] contents) ∧
      ∃ errors, run bareSurroundings [ascii "--format-file="] =
        .ok ⟨statusOk, [Byte.lineFeed], errors⟩ := by
  refine ⟨fun _ hholds => FileState.noConfusion hholds, ?_⟩
  have hparse : parse bareSurroundings [ascii "--format-file="] =
      .ok ⟨.file [], standardInputName, none, {}, defaultStyle⟩ := rfl
  obtain ⟨report, hcompile⟩ : ∃ report,
      Program.compile (.ofBytes []) {} = .ok (some ⟨[], {}, [], [], []⟩, report) := ⟨_, rfl⟩
  obtain ⟨log, hlog, _⟩ := exists_reportLog (ascii "format") report
  rw [run, hparse]
  simp only [Invocation.run, Invocation.formatText, Invocation.formatName?, List.isEmpty_nil,
    if_true, hcompile, hlog, bind, Except.bind]
  have hread : Document.read (.ofBytes (ascii "[]")) =
      .ok (some (.array []), .ofBytes (ascii "[]")) := by
    rw [Document.read_eq_settle]
    rfl
  have hinput : Invocation.inputText ⟨.file [], standardInputName, none, {}, defaultStyle⟩
      bareSurroundings = .ok (ascii "[]") := rfl
  rw [Invocation.runProgram, hinput]
  simp only [hread, bind, Except.bind]
  exact ⟨_, rfl⟩

end JsonTable.CommandLine
