import JsonTable.Bytes

/-!
# Misuse

A call with arguments outside the function's domain: a position past the end
of a text, an object with two members of one key, a value that no cell can
show. No input of a user leads to one; they are reported apart from what a
user can mend.
-/

namespace JsonTable

open Bytes

inductive Misuse where
  | byteOutOfRange (position : Nat)
  | sliceOutOfRange (position : Nat)
  | placeOutOfRange (position : Nat)
  | repeatedMember (key : Bytes)
  /-- A cell was asked to show a value that has no text; `kind` names its kind. -/
  | noCellText (kind : Bytes)
  /-- A line item was opened although the chain of line items was complete. -/
  | chainComplete (position : Nat)
  /-- A format was refused, but no error was recorded. -/
  | undiagnosedFormat
  /-- A document was refused, but no error was recorded. -/
  | undiagnosedDocument
deriving Repr, DecidableEq

def Misuse.message : Misuse → Bytes
  | .byteOutOfRange position =>
      ascii "Out of bound error. " ++ decimal position ++ ascii " is beyond the end of input."
  | .sliceOutOfRange position =>
      ascii "Out of bound error. substr() at " ++ decimal position
        ++ ascii " is beyond the end of input."
  | .placeOutOfRange position =>
      ascii "rowCol() called past eof: " ++ decimal position
  | .repeatedMember key =>
      ascii "JsonLoc maps are supposed to be key-disjoint. Duplicate: " ++ key
  | .noCellText kind => ascii "cellText() called on a " ++ kind
  | .chainComplete position =>
      ascii "A second line item chain was started at " ++ decimal position
  | .undiagnosedFormat => ascii "Format compilation failed without any diagnostics"
  | .undiagnosedDocument => ascii "json parsing failed without any diagnostics"

end JsonTable
