import JsonTable.CommandLine.Invocation
import JsonTable.Engine
import JsonTable.Format.Compiler

/-!
# Runs

A run of the command as a function: from the words, the variables, the files
and the standard input to what is printed and the exit status. Nothing is
printed on the standard output unless the run succeeds.
-/

namespace JsonTable.CommandLine

open Bytes

inductive FileState where
  | absent
  | unreadable
  | contents (bytes : Bytes)
deriving Repr, DecidableEq

/-- Everything that a run depends on apart from its words. -/
structure Surroundings where
  command : Bytes
  environment : Bytes → Option Bytes
  standardInput : Bytes
  /-- Reading the standard input fails. -/
  inputBroken : Bool := false
  file : Bytes → FileState
  /-- Printing anything on the standard output fails. -/
  outputFull : Bool
  /-- A text shorter than this is held back and printed with what follows. -/
  outputBuffer : Nat := 4096

structure Outcome where
  status : Nat
  output : Bytes
  errors : Bytes
deriving Repr, DecidableEq

def statusOk : Nat :=
  0

def statusUsage : Nat :=
  1

def statusFailure : Nat :=
  2

inductive FileError where
  | cannotOpen (name : Bytes)
  | cannotRead (name : Bytes)
  | cannotWrite
deriving Repr, DecidableEq

def FileError.message : FileError → Bytes
  | .cannotOpen name => ascii "Could not open " ++ name ++ ascii " for reading"
  | .cannotRead name => ascii "Failed to read from " ++ name
  | .cannotWrite => ascii "Write error on stdout"

/-- The last part of a path's text, which is how messages name the command. -/
def baseName (path : Bytes) : Bytes :=
  let backwards := path.reverse.dropWhile (· == Byte.slash)
  if path.isEmpty then [Byte.dot]
  else if backwards.isEmpty then [Byte.slash]
  else (backwards.takeWhile (· != Byte.slash)).reverse

/-- Debugging is on if the variable is set to anything but nothing and zero. -/
def debugWanted (surroundings : Surroundings) : Bool :=
  match surroundings.environment (ascii "JSONFLAT_DEBUG") with
  | none => false
  | some value => !value.isEmpty && value != [Byte.zero]

def operandsEndFlags (surroundings : Surroundings) : Bool :=
  (surroundings.environment (ascii "POSIXLY_CORRECT")).isSome

/-- The contents of a file, or what is left of the standard input. -/
def readFile (surroundings : Surroundings) (standardInput name : Bytes) :
    Except FileError Bytes :=
  if name = standardInputName then
    if surroundings.inputBroken then .error (.cannotRead (ascii "stdin"))
    else .ok standardInput
  else
    match surroundings.file name with
    | .absent => .error (.cannotOpen name)
    | .unreadable => .error (.cannotRead name)
    | .contents bytes => .ok bytes

/-- The diagnostics of a report, each with its excerpt up to the first NUL. -/
def reportLog (label : Bytes) (report : Report) : Except Misuse Bytes := do
  let texts ← report.diagnostics.mapM fun d => d.withExcerpt report.source
  return texts.flatMap fun text => label ++ ascii ":" ++ beforeNul text ++ [Byte.lineFeed]

def failed (log : Bytes) (error : FileError) : Outcome where
  status := statusFailure
  output := []
  errors := log ++ programName ++ ascii ": " ++ beforeNul error.message ++ [Byte.lineFeed]

namespace Invocation

/-- The name of the file that holds the format. An empty name stands for no file. -/
def formatName? (invocation : Invocation) : Option Bytes :=
  match invocation.format with
  | .text _ => none
  | .file name => if name.isEmpty then none else some name

def formatText (invocation : Invocation) (surroundings : Surroundings) :
    Except FileError Bytes :=
  match invocation.formatName?, invocation.format with
  | some name, _ => readFile surroundings surroundings.standardInput name
  | none, .text format => .ok format
  | none, .file _ => .ok []

/-- The JSON text. The standard input is empty if the format was read from there. -/
def inputText (invocation : Invocation) (surroundings : Surroundings) :
    Except FileError Bytes :=
  let standardInput :=
    if invocation.formatName? = some standardInputName then [] else surroundings.standardInput
  readFile surroundings standardInput invocation.input

def inputLabel (invocation : Invocation) : Bytes :=
  if invocation.input = standardInputName then ascii "stdin" else invocation.input

def renderHeader (invocation : Invocation) : Bytes :=
  (invocation.header.map (· ++ invocation.style.lineSeparator)).getD []

def renderRows (invocation : Invocation) (rows : Rows) : Bytes :=
  if rows.isEmpty then [] else invocation.style.text rows ++ invocation.style.lineSeparator

/--
Prints the table of a document by a program. The header goes out before the table is made; if
it is too long to be held back, its loss is noticed then.
-/
def printTable (invocation : Invocation) (surroundings : Surroundings) (log : Bytes)
    (program : Program) (document : Document) : Except Misuse Outcome :=
  let header := invocation.renderHeader
  if surroundings.outputFull && !header.isEmpty && surroundings.outputBuffer ≤ header.length then
    return failed log .cannotWrite
  else do
    let table := (program.run document).run
    let output := header ++ invocation.renderRows (← table.value)
    let log := log ++ logText table.notes
    if surroundings.outputFull && !output.isEmpty then return failed log .cannotWrite
    else return ⟨statusOk, output, log⟩

def runProgram (invocation : Invocation) (surroundings : Surroundings) (log : Bytes)
    (program : Program) : Except Misuse Outcome := do
  match invocation.inputText surroundings with
  | .error error => return failed log error
  | .ok text =>
      let (document?, report) ← Document.read (.ofBytes text)
      let log := log ++ (← reportLog invocation.inputLabel report)
      match document? with
      | none => return ⟨statusFailure, [], log⟩
      | some document => invocation.printTable surroundings log program document

def run (invocation : Invocation) (surroundings : Surroundings) : Except Misuse Outcome := do
  match invocation.formatText surroundings with
  | .error error => return failed [] error
  | .ok format =>
      let (program?, report) ← Program.compile (.ofBytes format) invocation.options
      let log ← reportLog (ascii "format") report
      match program? with
      | none => return ⟨statusFailure, [], log⟩
      | some program => invocation.runProgram surroundings log program

/-- The names of the files that a run may read, the standard input among them. -/
def fileNames (invocation : Invocation) : List Bytes :=
  invocation.formatName?.toList ++ [invocation.input]

end Invocation

def parse (surroundings : Surroundings) (words : List Bytes) : Except UsageError Invocation :=
  parseWords (operandsEndFlags surroundings) (debugWanted surroundings) words

def run (surroundings : Surroundings) (words : List Bytes) : Except Misuse Outcome :=
  match parse surroundings words with
  | .error error =>
      .ok ⟨statusUsage, [], error.message (baseName surroundings.command)⟩
  | .ok invocation => invocation.run surroundings

end JsonTable.CommandLine
