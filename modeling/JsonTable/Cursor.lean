import JsonTable.Report

/-!
# Going through a source

The readers go through a source by positions. To look at a byte that is not there,
or to take a slice from past the end, is a misuse, so they compare each position
with the size first. The first error ends the reading; it is put into a report when
the reading is over.
-/

namespace JsonTable

/-- Why reading ended early. -/
inductive Stop where
  /-- There is something to say about a range of the text. -/
  | error (first last : Nat) (message : Bytes)
  | misuse (cause : Misuse)
deriving Repr, DecidableEq

/-- What reading gives: a result, mostly with the position after it, or why there is none. -/
abbrev Scan := Except Stop

namespace Source

def byte (source : Source) (position : Nat) : Scan UInt8 :=
  (source.byteAt position).mapError .misuse

def text (source : Source) (position count : Nat) : Scan Bytes :=
  (source.slice position count).mapError .misuse

/-- Whether there is a byte at a position that passes a test. -/
def holds (source : Source) (test : UInt8 → Bool) (position : Nat) : Scan Bool :=
  if position < source.size then return test (← source.byte position) else return false

/-- The first position from one on that has no byte, or one that fails a test. -/
def skipWhile (source : Source) (test : UInt8 → Bool) (position : Nat) : Scan Nat :=
  if _h : position < source.size then do
    if test (← source.byte position) then source.skipWhile test (position + 1)
    else return position
  else return position
termination_by source.size - position

end Source

def Report.conclude {α : Type} (report : Report) :
    Scan α → Except Misuse (Option α × Report)
  | .ok result => .ok (some result, report)
  | .error (.misuse cause) => .error cause
  | .error (.error first last message) => do
      let report ← report.error first last message
      return (none, report)

end JsonTable
