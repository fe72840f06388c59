import JsonTable.CommandLine.Word
import JsonTable.DelimitedText

/-!
# Invocations

An invocation is what the words ask for: a format, an input, and how to write
the table. It is collected entry by entry, and the first entry that cannot be
accepted is the error reported.
-/

namespace JsonTable.CommandLine

open Bytes

inductive FormatSource where
  | text (format : Bytes)
  | file (name : Bytes)
deriving Repr, DecidableEq

def standardInputName : Bytes :=
  [Byte.minus]

/-- The command writes lines that end with a line feed unless told otherwise. -/
def defaultStyle : TextStyle :=
  { lineSeparator := [Byte.lineFeed] }

structure Invocation where
  format : FormatSource
  input : Bytes
  header : Option Bytes
  options : Options
  style : TextStyle
deriving Repr, DecidableEq

/-- What the entries so far ask for. -/
structure Request where
  format : Option FormatSource := none
  operands : List Bytes := []
  header : Option Bytes := none
  options : Options := {}
  style : TextStyle := defaultStyle
deriving Repr, DecidableEq

namespace Request

def setFormat (request : Request) (source : FormatSource) : Except UsageError Request :=
  match request.format with
  | none => .ok { request with format := some source }
  | some _ => .error .manyFormats

def setSeparator (request : Request) (separator : Bytes) : Request :=
  { request with style := { request.style with separator } }

def take (request : Request) : Entry → Except UsageError Request
  | .operand word => .ok { request with operands := request.operands ++ [word] }
  | .flag .format _ text => request.setFormat (.text text)
  | .flag .formatFile _ name => request.setFormat (.file name)
  | .flag .nullValue _ nullText =>
      .ok { request with options := { request.options with nullText } }
  | .flag .separator _ separator => .ok (request.setSeparator separator)
  | .flag .tsv _ _ => .ok (request.setSeparator [Byte.tab])
  | .flag .quote _ word =>
      match Quoting.ofName? word with
      | some quoting => .ok { request with style := { request.style with quoting } }
      | none => .error (.unknownQuoting word)
  | .flag .crlf _ _ =>
      .ok { request with
        style := { request.style with
          lineSeparator := [Byte.carriageReturn, Byte.lineFeed] } }
  | .flag .header _ text => .ok { request with header := some text }
  | .flag .debug _ _ => .ok { request with options := { request.options with debug := true } }
  | .flag .help _ _ => .error .helpWanted

def finish (request : Request) : Except UsageError Invocation :=
  match request.format, request.operands with
  | none, _ => .error .noFormat
  | some _, _ :: _ :: _ => .error .manyInputs
  | some format, operands =>
      .ok {
        format
        input := operands.headD standardInputName
        header := request.header
        options := request.options
        style := request.style }

end Request

/-- What words ask for. `debug` says whether debugging is on from the outset. -/
def parseWords (operandsEndFlags debug : Bool) (words : List Bytes) :
    Except UsageError Invocation :=
  match findUnknownFlag? words with
  | some word => .error (.unknownFlag word)
  | none => do
      let (accepted, error?) := entries operandsEndFlags words
      let request ← accepted.foldlM Request.take { options := { debug } }
      match error? with
      | some error => throw error
      | none => request.finish

end JsonTable.CommandLine
