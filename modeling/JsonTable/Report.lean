import JsonTable.Diagnostic

/-!
# Reports

A report is a text and the diagnostics recorded about it so far, in the order
in which they were recorded. Readers take a report and give it back extended.

A `Refusal` is for callers that do not want the report: it holds the first error.
-/

namespace JsonTable

/-- A text and what was found to say about it. -/
structure Report where
  source : Source
  diagnostics : List Diagnostic

namespace Report

def ofBytes (bytes : Bytes) : Report :=
  ⟨.ofBytes bytes, []⟩

def add (report : Report) (d : Diagnostic) : Report :=
  { report with diagnostics := report.diagnostics ++ [d] }

def record (report : Report) (severity : Severity) (start stop : Nat) (message : Bytes) :
    Except Misuse Report :=
  (Diagnostic.make report.source severity start stop message).map report.add

def error (report : Report) (start stop : Nat) (message : Bytes) : Except Misuse Report :=
  report.record .error start stop message

def warning (report : Report) (start stop : Nat) (message : Bytes) : Except Misuse Report :=
  report.record .warning start stop message

def firstError? (report : Report) : Option Diagnostic :=
  report.diagnostics.find? fun d => d.severity = .error

/-- Whether an error was recorded; warnings do not count. -/
def hasError (report : Report) : Bool :=
  report.diagnostics.any fun d => d.severity = .error

def firstErrorText (report : Report) : Bytes :=
  (report.firstError?.map Diagnostic.toBytes).getD []

end Report

/-- Why a text gave no result. -/
inductive Refusal where
  /-- The text has an error, the first of which is given. -/
  | rejected (error : Diagnostic)
  /-- The library was misused on the way. -/
  | misuse (cause : Misuse)
deriving Repr, DecidableEq

def Refusal.message : Refusal → Bytes
  | .rejected error => error.toBytes
  | .misuse cause => cause.message

end JsonTable
