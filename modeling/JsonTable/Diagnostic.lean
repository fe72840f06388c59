import JsonTable.Source

/-!
# Diagnostics

A diagnostic is a message about a range of a text. The range is half-open and
never empty: an empty range is widened to one byte. Its two places are those of
its first and its last byte, the last one cut off at the end of the text.

`withExcerpt` adds the line in question and underlines the range, as far as it
lies in that line.
-/

namespace JsonTable

open Bytes

inductive Severity where
  | error
  | warning
deriving Repr, DecidableEq

def Severity.name : Severity → Bytes
  | .error => ascii "error"
  | .warning => ascii "warning"

/-- A message about the bytes from `start` to before `stop`. -/
structure Diagnostic where
  severity : Severity
  start : Nat
  stop : Nat
  first : Place
  last : Place
  message : Bytes
deriving Repr, DecidableEq

namespace Diagnostic

/-- A diagnostic about a range of `source`, which has to begin no later than at its end. -/
def make (source : Source) (severity : Severity) (start stop : Nat) (message : Bytes) :
    Except Misuse Diagnostic := do
  let stop := max stop (start + 1)
  let first ← source.place start
  let last ← source.place (min (stop - 1) source.size)
  return { severity, start, stop, first, last, message }

/-- The place of a range: its lines, else its line and columns, else the one column. -/
def range (d : Diagnostic) : Bytes :=
  if d.first.line ≠ d.last.line then
    decimal d.first.line ++ ascii "-" ++ decimal d.last.line
  else if d.first.column ≠ d.last.column then
    decimal d.first.line ++ ascii ":" ++ decimal d.first.column
      ++ ascii "-" ++ decimal d.last.column
  else decimal d.first.line ++ ascii ":" ++ decimal d.first.column

def toBytes (d : Diagnostic) : Bytes :=
  d.range ++ ascii ": " ++ d.severity.name ++ ascii ": " ++ d.message

/-- The line of `text` that holds a position, without the bytes that end it. -/
def lineAt (text : Source) (position : Nat) : Except Misuse Bytes := do
  let start := text.lineStart position
  let stop := (text.find? Byte.lineFeed start).getD text.size
  let line ← text.slice start (stop - start)
  return if line.getLast? = some Byte.carriageReturn then line.dropLast else line

/-- What stands under the quoted line before the caret. Tabs are kept, so that columns line up. -/
def padding (line : Bytes) (width : Nat) : Bytes :=
  (line.take width).map fun b => if b = Byte.tab then Byte.tab else Byte.space

/-- The caret under the first byte and a tilde under each further byte that is in the line. -/
def underline (start stop lineStop : Nat) : Bytes :=
  Byte.caret :: List.replicate (min stop lineStop - (start + 1)) Byte.tilde

def withExcerpt (text : Source) (d : Diagnostic) : Except Misuse Bytes := do
  let lineStart := text.lineStart d.start
  let line ← lineAt text d.start
  return d.toBytes ++ ascii "\n  " ++ line ++ ascii "\n  "
    ++ padding line (d.start - lineStart)
    ++ underline d.start d.stop (lineStart + line.length)

end Diagnostic

end JsonTable
