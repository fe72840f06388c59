import JsonTable.CommandLine.UsageError

/-!
# Words

The words after the command's name are flags and operands in any order; a word
`--` ends the flags, unless it is the argument of one. A word that begins with
two hyphens has to name a flag in full, and that is checked before anything
else, for all words up to the first `--`. Words after a `--` that turns out to
be an argument escape that check; for them the first letters of a flag's name
are enough if no other name begins with them.
-/

namespace JsonTable.CommandLine

open Bytes

/-- What a word, with an argument if need be, stands for. A flag keeps the name it was given by. -/
inductive Entry where
  | flag (flag : Flag) (written argument : Bytes)
  | operand (word : Bytes)
deriving Repr, DecidableEq

/-- What introduces a flag, and on its own ends them. -/
def hyphens : Bytes :=
  [Byte.minus, Byte.minus]

/-- A flag without its hyphens, split at the first equals sign. -/
def splitArgument (body : Bytes) : Bytes × Option Bytes :=
  (body.takeWhile (· != Byte.equals),
    match body.dropWhile (· != Byte.equals) with
    | [] => none
    | _ :: argument => some argument)

def isUnknownFlag (word : Bytes) : Bool :=
  match after? hyphens word with
  | none => false
  | some body => (Flag.ofName? (splitArgument body).1).isNone

def findUnknownFlag? (words : List Bytes) : Option Bytes :=
  (words.takeWhile (· != hyphens)).find? isUnknownFlag

/-- Words that do not begin with a hyphen are operands, and so is a hyphen on its own. -/
def isOperand (word : Bytes) : Bool :=
  word.head? != some Byte.minus || word.length == 1

/-- The flag that a name, or the beginning of a name, stands for. -/
def resolveFlag (body name : Bytes) : Except UsageError Flag :=
  match Flag.ofName? name with
  | some flag => .ok flag
  | none =>
      match Flag.candidates name with
      | [] => .error (.noSuchFlag body)
      | [flag] => .ok flag
      | several => .error (.ambiguousFlag body several)

/-- Entries in order, and the error that ended them, if any. -/
abbrev Entries := List Entry × Option UsageError

def Entry.before (entry : Entry) (following : Entries) : Entries :=
  (entry :: following.1, following.2)

def UsageError.entries (error : UsageError) : Entries :=
  ([], some error)

def operands (words : List Bytes) : Entries :=
  (words.map .operand, none)

/--
The entries that words stand for, up to the first error. If operands end the
flags, everything from the first operand on is an operand.
-/
def entries (operandsEndFlags : Bool) : List Bytes → Entries
  | [] => ([], none)
  | word :: words =>
      if isOperand word then
        if operandsEndFlags then operands (word :: words)
        else (Entry.operand word).before (entries operandsEndFlags words)
      else
        match after? hyphens word with
        | none => (UsageError.noShortFlags (word.getD 1 0)).entries
        | some [] => operands words
        | some body =>
            let (name, argument?) := splitArgument body
            match resolveFlag body name with
            | .error error => error.entries
            | .ok flag =>
                match flag.takesArgument, argument?, words with
                | false, none, words =>
                    (Entry.flag flag name []).before (entries operandsEndFlags words)
                | false, some _, _ => (UsageError.unwantedArgument flag).entries
                | true, some argument, words =>
                    (Entry.flag flag name argument).before (entries operandsEndFlags words)
                | true, none, argument :: words =>
                    (Entry.flag flag name argument).before (entries operandsEndFlags words)
                | true, none, [] => (UsageError.missingArgument flag).entries

end JsonTable.CommandLine
