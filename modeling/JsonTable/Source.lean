import JsonTable.LowerBound
import JsonTable.Misuse

/-!
# Texts with a line index

A `Source` is a text together with its bytes as an array, for access by position,
and the positions of its newlines, so that the line and column of a position are
found by binary search. Positions count from
zero, lines and columns from one. A newline byte belongs to the line it ends,
and the position just past the last byte has a place too: that is where a
message about an unexpected end points.
-/

namespace JsonTable

def newlinePositions (text : Bytes) : List Nat :=
  (text.zipIdx.filter fun entry => entry.1 == Byte.lineFeed).map (·.2)

/-- A line and a column, both counted from one. -/
structure Place where
  line : Nat
  column : Nat
deriving Repr, DecidableEq

/-- A text, with its bytes and the positions of its newlines for access by position. -/
structure Source where
  bytes : Bytes
  cells : Array UInt8
  newlines : Array Nat
  cells_eq : cells.toList = bytes
  newlines_eq : newlines.toList = newlinePositions bytes

namespace Source

def ofBytes (bytes : Bytes) : Source where
  bytes := bytes
  cells := bytes.toArray
  newlines := (newlinePositions bytes).toArray
  cells_eq := rfl
  newlines_eq := rfl

@[simp]
theorem bytes_ofBytes (bytes : Bytes) : (ofBytes bytes).bytes = bytes :=
  rfl

def size (source : Source) : Nat :=
  source.cells.size

theorem size_eq (source : Source) : source.size = source.bytes.length := by
  rw [size, ← source.cells_eq, Array.length_toList]

theorem lt_size_of_getElem? {source : Source} {position : Nat} {b : UInt8}
    (h : source.bytes[position]? = some b) : position < source.size :=
  source.size_eq ▸ (List.getElem?_eq_some_iff.mp h).1

def byteAt (source : Source) (position : Nat) : Except Misuse UInt8 :=
  match source.cells[position]? with
  | some b => .ok b
  | none => .error (.byteOutOfRange position)

/-- Up to `count` bytes from a position on, which may be the end but not past it. -/
def slice (source : Source) (position count : Nat) : Except Misuse Bytes :=
  if position ≤ source.size then .ok ((source.bytes.drop position).take count)
  else .error (.sliceOutOfRange position)

/-- Whether `part` stands at a position. Nothing stands past the end, not even the empty text. -/
def hasAt (source : Source) (position : Nat) (part : Bytes) : Bool :=
  decide (position ≤ source.size) && part.isPrefixOf (source.bytes.drop position)

def find? (source : Source) (byte : UInt8) (start : Nat) : Option Nat :=
  ((source.bytes.drop start).findIdx? (· == byte)).map (start + ·)

/-- Number of newlines strictly before a position. -/
def newlinesBefore (source : Source) (position : Nat) : Nat :=
  lowerBound source.newlines (· < position) 0 source.newlines.size (Nat.le_refl _)

/-- Where the line of a position begins: just past the last newline before it. -/
def lineStart (source : Source) (position : Nat) : Nat :=
  match source.newlinesBefore position with
  | 0 => 0
  | n + 1 => source.newlines.getD n 0 + 1

def place (source : Source) (position : Nat) : Except Misuse Place :=
  if position ≤ source.size then
    .ok {
      line := source.newlinesBefore position + 1
      column := position + 1 - source.lineStart position }
  else .error (.placeOutOfRange position)

end Source

end JsonTable
