import JsonTable.Report

/-!
# Faults

A reader of the bytes that are left knows no positions. A fault is therefore
placed by the number of bytes left where it begins; only when it is reported is
that turned into a position of the whole text. So no such reader's result
depends on what stands before the bytes it reads, and a reader by position that
agrees with one does not depend on it either.
-/

namespace JsonTable

/-- What is wrong, how many bytes are left where it begins, and how many it covers. -/
structure Fault (Cause : Type) where
  left : Nat
  width : Nat
  cause : Cause
deriving Repr, DecidableEq

/-- Why a reader stopped: the text is at fault, or the reader misused another function. -/
inductive Failure (Cause : Type) where
  | fault (fault : Fault Cause)
  | misuse (cause : Misuse)
deriving Repr, DecidableEq

/-- A fault in the first `width` bytes of what is left. -/
def faultAt {Cause : Type} (rest : Bytes) (width : Nat) (cause : Cause) : Failure Cause :=
  .fault ⟨rest.length, width, cause⟩

def faultToEnd {Cause : Type} (rest : Bytes) (cause : Cause) : Failure Cause :=
  faultAt rest rest.length cause

namespace Report

/-- The position of a place with `left` bytes left, if reading began at `start`. -/
def positionOf (report : Report) (start left : Nat) : Nat :=
  start + (report.source.size - start - left)

/-- The outcome of reading the bytes from `start` on: a result, or an error in the report. -/
def settle {Cause α : Type} (report : Report) (start : Nat) (message : Cause → Bytes) :
    Except (Failure Cause) α → Except Misuse (Option α × Report)
  | .ok result => .ok (some result, report)
  | .error (.misuse cause) => .error cause
  | .error (.fault fault) => do
      let position := report.positionOf start fault.left
      let report ← report.error position (position + fault.width) (message fault.cause)
      return (none, report)

end Report

end JsonTable
