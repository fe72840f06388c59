import JsonTable.Bytes

/-!
# Flags

The flags of the command. A flag is written `--name`, with its argument, if it
takes one, after an equals sign or as the next word.
-/

namespace JsonTable.CommandLine

open Bytes

inductive Flag where
  | format
  | formatFile
  | nullValue
  | separator
  | tsv
  | quote
  | crlf
  | header
  | debug
  | help
deriving Repr, DecidableEq

namespace Flag

def all : List Flag :=
  [format, formatFile, nullValue, separator, tsv, quote, crlf, header, debug, help]

/-- The name of a flag, without the two hyphens. -/
def name : Flag → Bytes
  | format => ascii "format"
  | formatFile => ascii "format-file"
  | nullValue => ascii "null-value"
  | separator => ascii "separator"
  | tsv => ascii "tsv"
  | quote => ascii "quote"
  | crlf => ascii "crlf"
  | header => ascii "header"
  | debug => ascii "debug"
  | help => ascii "help"

def takesArgument : Flag → Bool
  | format | formatFile | nullValue | separator | quote | header => true
  | tsv | crlf | debug | help => false

def ofName? (text : Bytes) : Option Flag :=
  all.find? fun flag => flag.name == text

def candidates (text : Bytes) : List Flag :=
  all.filter fun flag => text.isPrefixOf flag.name

@[simp]
theorem ofName?_name (flag : Flag) : ofName? flag.name = some flag := by
  cases flag <;> decide

end Flag

end JsonTable.CommandLine
