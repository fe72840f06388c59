import JsonTable.CommandLine.Run

/-!
# The command

Collects what a run depends on, carries it out and prints its outcome. All
decisions are made by `CommandLine.run`.
-/

namespace JsonTable.CommandLine

def textBytes (text : String) : Bytes :=
  text.toUTF8.toList

/-- What can be read from an open file. A directory can be opened but not read. -/
def readHandle (handle : IO.FS.Handle) : IO FileState :=
  tryCatch (return .contents (← handle.readBinToEnd).toList) fun _ => return .unreadable

def readStandardInput : IO (Option Bytes) :=
  tryCatch (return some (← (← IO.getStdin).readBinToEnd).toList) fun _ => return none

def fileState (name : Bytes) : IO FileState :=
  match String.fromUTF8? ⟨name.toArray⟩ with
  | none => return .absent
  | some path =>
      tryCatch (do readHandle (← IO.FS.Handle.mk path .read)) fun _ => return .absent

/-- What a run with the given words depends on. Only the files it may read are looked at. -/
def surroundingsOf (words : List Bytes) : IO Surroundings := do
  let known ← ["JSONFLAT_DEBUG", "POSIXLY_CORRECT"].filterMapM fun name => do
    return (← IO.getEnv name).map fun value => (textBytes name, textBytes value)
  let idle : Surroundings :=
    { command := textBytes (← IO.appPath).toString
      environment := fun name => known.lookup name
      standardInput := []
      file := fun _ => .absent
      outputFull := false }
  match parse idle words with
  | .error _ => return idle
  | .ok invocation =>
      let names := invocation.fileNames
      let standardInput? ←
        if names.contains standardInputName then readStandardInput else pure (some [])
      let files ← names.mapM fun name => return (name, ← fileState name)
      return { idle with
        standardInput := standardInput?.getD []
        inputBroken := standardInput?.isNone
        file := fun name => (files.lookup name).getD .absent }

end JsonTable.CommandLine

open JsonTable JsonTable.CommandLine

def main (arguments : List String) : IO UInt32 := do
  let words := arguments.map textBytes
  match run (← surroundingsOf words) words with
  | .error misuse =>
      (← IO.getStderr).write ⟨(misuse.message ++ [Byte.lineFeed]).toArray⟩
      return 134
  | .ok outcome =>
      (← IO.getStderr).write ⟨outcome.errors.toArray⟩
      try
        (← IO.getStdout).write ⟨outcome.output.toArray⟩
        (← IO.getStdout).flush
        return UInt32.ofNat outcome.status
      catch _ =>
        (← IO.getStderr).write ⟨(failed [] .cannotWrite).errors.toArray⟩
        return UInt32.ofNat statusFailure
