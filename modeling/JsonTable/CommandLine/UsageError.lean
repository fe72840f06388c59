import JsonTable.CommandLine.Flag

/-!
# Usage errors

What can be wrong with the words after the command's name. Asking for help is
among them: it prints the usage and does nothing else.
-/

namespace JsonTable.CommandLine

open Bytes

inductive UsageError where
  /-- A word that begins with two hyphens is no flag's name in full. -/
  | unknownFlag (word : Bytes)
  /-- A word that begins with one hyphen; there are no one-letter flags. -/
  | noShortFlags (letter : UInt8)
  /-- No flag's name begins like this. -/
  | noSuchFlag (body : Bytes)
  /-- More than one flag's name begins like this. -/
  | ambiguousFlag (body : Bytes) (candidates : List Flag)
  | missingArgument (flag : Flag)
  | unwantedArgument (flag : Flag)
  | noFormat
  | manyFormats
  | manyInputs
  | unknownQuoting (word : Bytes)
  | helpWanted
deriving Repr, DecidableEq

def usage : Bytes :=
  [ "",
    "Usage:  jsonflat [options] --format=STR [file.json]",
    "        jsonflat [options] --format-file=FILE [file.json]",
    "        jsonflat --help                      # This message",
    "",
    "Reads json from file.json, or from stdin if it is missing or \"-\", and prints",
    "one line per row the format string extracts from it.",
    "",
    "Options:",
    "  --null-value=STR      Printed for missing or null fields (default empty)",
    "  --separator=STR       Field separator (default \",\")",
    "  --tsv                 Same as --separator with a tab",
    "  --quote=MODE          One of never, always, smart (default smart)",
    "  --crlf                End lines with \"\\r\\n\" instead of \"\\n\"",
    "  --header=STR          Printed verbatim as the first line",
    "  --debug               Explain every null value on stderr. Setting",
    "                        JSONFLAT_DEBUG in the environment does the same."
  ].flatMap fun line => ascii line ++ [Byte.lineFeed]

def inApostrophes (text : Bytes) : Bytes :=
  ascii "'" ++ text ++ ascii "'"

def Flag.written (flag : Flag) : Bytes :=
  ascii "--" ++ flag.name

/-- What is printed about an error. `command` is the name the command was called by. -/
def UsageError.message (command : Bytes) : UsageError → Bytes
  | .unknownFlag word => ascii "Unknown option " ++ inApostrophes word ++ ascii "\n"
  | .noShortFlags letter =>
      command ++ ascii ": invalid option -- " ++ inApostrophes [letter] ++ ascii "\n"
  | .noSuchFlag body =>
      command ++ ascii ": unrecognized option " ++ inApostrophes (ascii "--" ++ body)
        ++ ascii "\n"
  | .ambiguousFlag body candidates =>
      command ++ ascii ": option " ++ inApostrophes (ascii "--" ++ body)
        ++ ascii " is ambiguous; possibilities:"
        ++ candidates.flatMap (fun flag => ascii " " ++ inApostrophes flag.written)
        ++ ascii "\n"
  | .missingArgument flag =>
      command ++ ascii ": option " ++ inApostrophes flag.written
        ++ ascii " requires an argument\n"
  | .unwantedArgument flag =>
      command ++ ascii ": option " ++ inApostrophes flag.written
        ++ ascii " doesn't allow an argument\n"
  | .noFormat => ascii "One of --format or --format-file is required\n" ++ usage ++ ascii "\n"
  | .manyFormats =>
      ascii "Only one of --format or --format-file may be specified, and only once\n"
  | .manyInputs => ascii "jsonflat supports only a single input file\n"
  | .unknownQuoting word =>
      ascii "--quote must be one of never, always, or smart. Got " ++ inApostrophes word
        ++ ascii "\n"
  | .helpWanted => usage ++ ascii "\n"

end JsonTable.CommandLine
