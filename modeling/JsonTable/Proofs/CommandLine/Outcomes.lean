import JsonTable.CommandLine.Run
import JsonTable.Proofs.Engine
import JsonTable.Proofs.Excerpts
import JsonTable.Proofs.Format.Faults
import JsonTable.Proofs.Json.Faults

/-!
# Outcomes of runs

A run goes through the stages of the library one after the other and prints only when the
last of them has succeeded. So there is an outcome for all words and surroundings, and its
output is the whole table or nothing. A run without output for want of a table, or because
it cannot print the table, says why on the standard error.
-/

namespace JsonTable.CommandLine

open Bytes

/-- The header as it is printed, with the end of its line. -/
def headerText (invocation : Invocation) : Bytes :=
  match invocation.header with
  | none => []
  | some header => header ++ invocation.style.lineSeparator

/-- The rows as they are printed: as one text with one line separator after it. -/
def rowsText (style : TextStyle) : Rows → Bytes
  | [] => []
  | row :: rows => style.text (row :: rows) ++ style.lineSeparator

/-- The output of a program, if the input denotes a document. -/
def Invocation.YieldsBy (invocation : Invocation) (surroundings : Surroundings)
    (program : Program) (output : Bytes) : Prop :=
  ∃ text document, invocation.inputText surroundings = .ok text ∧
    Document.ofText text = .ok document ∧
    output = headerText invocation ++ rowsText invocation.style (program.extract document).value

/-- The output of an invocation, if its format compiles and the input denotes a document. -/
def Invocation.Yields (invocation : Invocation) (surroundings : Surroundings)
    (output : Bytes) : Prop :=
  ∃ format program, invocation.formatText surroundings = .ok format ∧
    Program.ofFormat format invocation.options = .ok program ∧
    invocation.YieldsBy surroundings program output

def Yields (surroundings : Surroundings) (words : List Bytes) (output : Bytes) : Prop :=
  ∃ invocation, parse surroundings words = .ok invocation ∧
    invocation.Yields surroundings output

/-! ## Stages -/

theorem compile_or_reject (format : Bytes) (options : Options) :
    (∃ program report, Program.compile (.ofBytes format) options = .ok (some program, report) ∧
        Program.ofFormat format options = .ok program) ∨
      ∃ error : Diagnostic,
        Program.compile (.ofBytes format) options =
            .ok (none, (Report.ofBytes format).add error) ∧
          Program.ofFormat format options = .error (.rejected error) := by
  rcases Format.compile_outcome (.ofBytes format) options with
    ⟨draft, report, _, hcompile, _⟩ | ⟨error, hcompile, herror⟩
  · exact Or.inl ⟨_, report, hcompile, Format.ofFormat_eq_ok_iff.mpr ⟨report, hcompile⟩⟩
  · exact Or.inr ⟨error, hcompile, Format.ofFormat_of_refused hcompile herror.severity_eq⟩

theorem read_or_reject (text : Bytes) :
    (∃ document, Document.read (.ofBytes text) = .ok (some document, .ofBytes text) ∧
        Document.ofText text = .ok document) ∨
      ∃ error : Diagnostic,
        Document.read (.ofBytes text) = .ok (none, (Report.ofBytes text).add error) ∧
          Document.ofText text = .error (.rejected error) := by
  rcases Json.read_outcome (.ofBytes text) with ⟨document, hread⟩ | ⟨error, hread, herror⟩
  · exact Or.inl ⟨document, hread, Json.ofText_eq_ok_iff.mpr (Json.read_eq_some_iff.mp hread).1⟩
  · exact Or.inr ⟨error, hread, Json.ofText_of_refused hread herror.severity_eq⟩

theorem exists_mapM_eq_ok {ε α β : Type} {f : α → Except ε β} (h : ∀ a, ∃ b, f a = .ok b)
    (as : List α) : ∃ bs, as.mapM f = .ok bs ∧ bs.length = as.length := by
  induction as with
  | nil => exact ⟨[], rfl, rfl⟩
  | cons a as ih =>
      obtain ⟨b, hb⟩ := h a
      obtain ⟨bs, hbs, hlength⟩ := ih
      refine ⟨b :: bs, ?_, congrArg (· + 1) hlength⟩
      rw [List.mapM_cons, hb, hbs]
      rfl

/-- A report can always be logged, and what it records leaves something in the log. -/
theorem exists_reportLog (label : Bytes) (report : Report) :
    ∃ log, reportLog label report = .ok log ∧ (report.diagnostics ≠ [] → log ≠ []) := by
  obtain ⟨texts, htexts, hlength⟩ := exists_mapM_eq_ok
    (fun d : Diagnostic => d.exists_withExcerpt report.source) report.diagnostics
  refine ⟨_, by rw [reportLog, htexts]; rfl, fun hne => ?_⟩
  cases texts with
  | nil => exact absurd (List.length_eq_zero_iff.mp hlength.symm) hne
  | cons text texts => simp

theorem exists_reportLog_add (label : Bytes) (report : Report) (error : Diagnostic) :
    ∃ log, reportLog label (report.add error) = .ok log ∧ log ≠ [] := by
  obtain ⟨log, hlog, hne⟩ := exists_reportLog label (report.add error)
  exact ⟨log, hlog, hne (by simp [Report.add])⟩

theorem ascii_eq_nil_iff {text : String} : ascii text = [] ↔ text = "" := by
  simp [ascii]

theorem UsageError.message_ne_nil (command : Bytes) (error : UsageError) :
    error.message command ≠ [] := by
  cases error <;> simp [UsageError.message, ascii_eq_nil_iff]

theorem renderHeader_eq (invocation : Invocation) :
    invocation.renderHeader = headerText invocation := by
  unfold Invocation.renderHeader headerText
  cases invocation.header <;> rfl

theorem renderRows_eq (invocation : Invocation) (rows : Rows) :
    invocation.renderRows rows = rowsText invocation.style rows := by
  cases rows <;> rfl

/-! ## Runs -/

def Outcome.Fails (outcome : Outcome) : Prop :=
  outcome.status = statusFailure ∧ outcome.output = [] ∧ outcome.errors ≠ []

/-- The output is printed, or the run fails because there is some and it cannot be printed. -/
def Outcome.Prints (surroundings : Surroundings) (output : Bytes) (outcome : Outcome) : Prop :=
  if surroundings.outputFull = true ∧ output ≠ [] then outcome.Fails
  else outcome.status = statusOk ∧ outcome.output = output

theorem fails_failed (log : Bytes) (error : FileError) : (failed log error).Fails :=
  ⟨rfl, rfl, by simp [failed]⟩

section Runs

variable {surroundings : Surroundings} {invocation : Invocation} {output : Bytes}

/-- If the header is lost at once then so would be the table, of which it is a part. -/
theorem prints_printTable (invocation : Invocation) (surroundings : Surroundings) (log : Bytes)
    (program : Program) (document : Document) :
    ∃ outcome, invocation.printTable surroundings log program document = .ok outcome ∧
      outcome.Prints surroundings
        (headerText invocation ++ rowsText invocation.style (program.extract document).value) := by
  rw [Invocation.printTable, renderHeader_eq]
  split
  · next hlost =>
      simp only [Bool.and_eq_true, Bool.not_eq_true', List.isEmpty_eq_false_iff] at hlost
      refine ⟨_, rfl, ?_⟩
      rw [Outcome.Prints, if_pos ⟨hlost.1.1, List.append_ne_nil_of_left_ne_nil hlost.1.2 _⟩]
      exact fails_failed _ _
  · have htable : (program.run document).run.value = .ok (program.extract document).value := by
      rw [program.run_eq document]
      rfl
    simp only [htable, renderRows_eq, bind, Except.bind]
    split
    · next hlost =>
        refine ⟨_, rfl, ?_⟩
        rw [Outcome.Prints, if_pos (by simpa using hlost)]
        exact fails_failed _ _
    · next hlost =>
        refine ⟨_, rfl, ?_⟩
        rw [Outcome.Prints, if_neg (by simpa using hlost)]
        exact ⟨rfl, rfl⟩

namespace Invocation

theorem runProgram_outcome (invocation : Invocation) (surroundings : Surroundings) (log : Bytes)
    (program : Program) :
    ∃ outcome, invocation.runProgram surroundings log program = .ok outcome ∧
      ((∃ output, invocation.YieldsBy surroundings program output ∧
          outcome.Prints surroundings output) ∨
        (∀ output, ¬ invocation.YieldsBy surroundings program output) ∧ outcome.Fails) := by
  cases htext : invocation.inputText surroundings with
  | error error =>
      refine ⟨failed log error, ?_, Or.inr ⟨?_, fails_failed _ _⟩⟩
      · rw [runProgram, htext]
        rfl
      · rintro output ⟨_, _, htext', _⟩
        cases htext.symm.trans htext'
  | ok text =>
      rcases read_or_reject text with ⟨document, hread, hdocument⟩ | ⟨error, hread, hrejected⟩
      · obtain ⟨more, hmore, _⟩ := exists_reportLog invocation.inputLabel (.ofBytes text)
        obtain ⟨outcome, hprint, hprints⟩ :=
          prints_printTable invocation surroundings (log ++ more) program document
        refine ⟨outcome, ?_, Or.inl ⟨_, ⟨text, document, htext, hdocument, rfl⟩, hprints⟩⟩
        rw [runProgram, htext]
        simp only [hread, hmore, bind, Except.bind]
        exact hprint
      · obtain ⟨more, hmore, hne⟩ :=
          exists_reportLog_add invocation.inputLabel (.ofBytes text) error
        refine ⟨⟨statusFailure, [], log ++ more⟩, ?_, Or.inr ⟨?_, rfl, rfl, ?_⟩⟩
        · rw [runProgram, htext]
          simp only [hread, hmore, bind, Except.bind]
          rfl
        · rintro output ⟨_, _, htext', hdocument, _⟩
          cases htext.symm.trans htext'
          cases hrejected.symm.trans hdocument
        · exact List.append_ne_nil_of_right_ne_nil _ hne

/-- A stage that fails ends the run and leaves nothing that the invocation could yield. -/
theorem run_outcome (invocation : Invocation) (surroundings : Surroundings) :
    ∃ outcome, invocation.run surroundings = .ok outcome ∧
      ((∃ output, invocation.Yields surroundings output ∧ outcome.Prints surroundings output) ∨
        (∀ output, ¬ invocation.Yields surroundings output) ∧ outcome.Fails) := by
  cases hformat : invocation.formatText surroundings with
  | error error =>
      refine ⟨failed [] error, ?_, Or.inr ⟨?_, fails_failed _ _⟩⟩
      · rw [run, hformat]
        rfl
      · rintro output ⟨_, _, hformat', _⟩
        cases hformat.symm.trans hformat'
  | ok format =>
      rcases compile_or_reject format invocation.options with
        ⟨program, report, hcompile, hprogram⟩ | ⟨error, hcompile, hrejected⟩
      · obtain ⟨log, hlog, _⟩ := exists_reportLog (ascii "format") report
        obtain ⟨outcome, hrun, hcases⟩ := invocation.runProgram_outcome surroundings log program
        refine ⟨outcome, ?_, hcases.imp ?_ (And.imp_left ?_)⟩
        · rw [run, hformat]
          simp only [hcompile, hlog, bind, Except.bind]
          exact hrun
        · rintro ⟨output, hyields, hprints⟩
          exact ⟨output, ⟨format, program, hformat, hprogram, hyields⟩, hprints⟩
        · rintro hnone output ⟨_, _, hformat', hprogram', hyields⟩
          cases hformat.symm.trans hformat'
          cases hprogram.symm.trans hprogram'
          exact hnone output hyields
      · obtain ⟨log, hlog, hne⟩ := exists_reportLog_add (ascii "format") (.ofBytes format) error
        refine ⟨⟨statusFailure, [], log⟩, ?_, Or.inr ⟨?_, rfl, rfl, hne⟩⟩
        · rw [run, hformat]
          simp only [hcompile, hlog, bind, Except.bind]
          rfl
        · rintro output ⟨_, _, hformat', hprogram, _⟩
          cases hformat.symm.trans hformat'
          cases hrejected.symm.trans hprogram

end Invocation

/-! ## What words ask for -/

theorem Invocation.Yields.eq {output' : Bytes} (h : invocation.Yields surroundings output)
    (h' : invocation.Yields surroundings output') : output = output' := by
  obtain ⟨format, program, hformat, hprogram, text, document, htext, hdocument, rfl⟩ := h
  obtain ⟨_, _, hformat', hprogram', _, _, htext', hdocument', rfl⟩ := h'
  cases hformat.symm.trans hformat'
  cases hprogram.symm.trans hprogram'
  cases htext.symm.trans htext'
  cases hdocument.symm.trans hdocument'
  rfl

theorem yields_iff {words : List Bytes} (hparse : parse surroundings words = .ok invocation) :
    Yields surroundings words output ↔ invocation.Yields surroundings output := by
  constructor
  · rintro ⟨_, hparse', hyields⟩
    cases hparse.symm.trans hparse'
    exact hyields
  · exact fun hyields => ⟨invocation, hparse, hyields⟩

/-- How an outcome stands to the table that words ask for. -/
structure Outcome.Settles (surroundings : Surroundings) (words : List Bytes)
    (outcome : Outcome) : Prop where
  status_mem : outcome.status ∈ [statusOk, statusUsage, statusFailure]
  /-- Success is the whole of the output, and nothing besides. -/
  yields : outcome.status = statusOk → Yields surroundings words outcome.output
  /-- Without success nothing is printed, and the standard error says why. -/
  silent : outcome.status ≠ statusOk → outcome.output = [] ∧ outcome.errors ≠ []
  /-- Whatever there is to print is printed, unless it would be lost. -/
  status_eq : ∀ output, Yields surroundings words output →
    outcome.status =
      if surroundings.outputFull = true ∧ output ≠ [] then statusFailure else statusOk
  usage_iff : outcome.status = statusUsage ↔ ∃ error, parse surroundings words = .error error

theorem settles_of_usageError {words : List Bytes} {error : UsageError}
    (hparse : parse surroundings words = .error error) :
    (Outcome.mk statusUsage [] (error.message (baseName surroundings.command))).Settles
      surroundings words where
  status_mem := by simp
  yields hstatus := by simp [statusUsage, statusOk] at hstatus
  silent _ := ⟨rfl, error.message_ne_nil _⟩
  status_eq := by
    rintro output ⟨_, hparse', _⟩
    cases hparse.symm.trans hparse'
  usage_iff := by simp [hparse]

/-- A failure is in order if all that could have been printed would be lost. -/
theorem Outcome.Fails.settles {words : List Bytes} {outcome : Outcome} (h : outcome.Fails)
    (hparse : parse surroundings words = .ok invocation)
    (hlost : ∀ output, invocation.Yields surroundings output →
      surroundings.outputFull = true ∧ output ≠ []) : outcome.Settles surroundings words := by
  obtain ⟨hstatus, houtput, herrors⟩ := h
  constructor
  case status_mem => simp [hstatus]
  case yields => simp [hstatus, statusFailure, statusOk]
  case silent => exact fun _ => ⟨houtput, herrors⟩
  case status_eq =>
    intro output hyields
    rw [if_pos (hlost output ((yields_iff hparse).mp hyields)), hstatus]
  case usage_iff => simp [hstatus, hparse, statusFailure, statusUsage]

theorem Outcome.Prints.settles {words : List Bytes} {outcome : Outcome}
    (h : outcome.Prints surroundings output)
    (hparse : parse surroundings words = .ok invocation)
    (hyields : invocation.Yields surroundings output) : outcome.Settles surroundings words := by
  unfold Outcome.Prints at h
  split at h
  · next hfull => exact h.settles hparse fun _ hyields' => hyields.eq hyields' ▸ hfull
  · next hfull =>
      obtain ⟨hstatus, rfl⟩ := h
      constructor
      case status_mem => simp [hstatus]
      case yields => exact fun _ => (yields_iff hparse).mpr hyields
      case silent => exact fun hne => absurd hstatus hne
      case status_eq =>
        intro output hyields'
        rw [← hyields.eq ((yields_iff hparse).mp hyields'), if_neg hfull, hstatus]
      case usage_iff => simp [hstatus, hparse, statusOk, statusUsage]

/-- There is an outcome for all words, and it is the whole of the table or nothing. -/
theorem run_prints_table_or_fails (surroundings : Surroundings) (words : List Bytes) :
    ∃ outcome, run surroundings words = .ok outcome ∧ outcome.Settles surroundings words := by
  cases hparse : parse surroundings words with
  | error error => exact ⟨_, by rw [run, hparse], settles_of_usageError hparse⟩
  | ok invocation =>
      obtain ⟨outcome, hrun, hcases⟩ := invocation.run_outcome surroundings
      refine ⟨outcome, by rw [run, hparse]; exact hrun, ?_⟩
      rcases hcases with ⟨output, hyields, hprints⟩ | ⟨hnone, hfails⟩
      · exact hprints.settles hparse hyields
      · exact hfails.settles hparse fun output hyields => absurd hyields (hnone output)

def stuckPipe : Surroundings where
  command := ascii "jsonflat"
  environment := fun _ => none
  standardInput := ascii "[7]"
  file := fun _ => .absent
  outputFull := true

def labelledWords : List Bytes :=
  [ascii "--format=\"a\"", ascii "--header=A", ascii "--null-value=none"]

theorem run_fails_if_table_is_not_printed :
    ∃ outcome, run stuckPipe labelledWords = .ok outcome ∧
      Yields stuckPipe labelledWords (ascii "A\nnone\n") ∧
      outcome.status = statusFailure ∧ outcome.output = [] ∧ outcome.errors ≠ [] := by
  have hdocument : Document.ofText (ascii "[7]") = .ok (.array [.number (ascii "7")]) := by
    rw [Document.ofText, Document.read_eq_settle]
    rfl
  have hyields : Yields stuckPipe labelledWords (ascii "A\nnone\n") :=
    ⟨_, rfl, _, _, rfl, rfl, _, _, rfl, hdocument, rfl⟩
  obtain ⟨outcome, hrun, hsettles⟩ := run_prints_table_or_fails stuckPipe labelledWords
  have hstatus : outcome.status = statusFailure := hsettles.status_eq _ hyields
  have hnotOk : outcome.status ≠ statusOk := by simp [hstatus, statusFailure, statusOk]
  exact ⟨outcome, hrun, hyields, hstatus, hsettles.silent hnotOk⟩

example : run { stuckPipe with outputFull := false } labelledWords =
    .ok ⟨statusOk, ascii "A\nnone\n", []⟩ := by
  cbv

end Runs

end JsonTable.CommandLine
