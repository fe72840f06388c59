import JsonTable.Keyed
import JsonTable.Table

/-!
# Joins

Two tables are joined on a key column each. A joined row is a left row followed
by a right row without its key. The strict join wants each key at most once on
either side and goes by the order of the right rows; the multi-join makes every
pair of rows with one key and goes by the order in which keys first appear on
the left. Rows without a partner are kept apart, in their order.

Every row needs a key. The first row that has none, or in a strict join the
first that repeats a key, is reported, left rows before right rows.
-/

namespace JsonTable

open Bytes

inductive Side where
  | left
  | right
  | input
deriving Repr, DecidableEq

def Side.name : Side → Bytes
  | .left => ascii "left"
  | .right => ascii "right"
  | .input => ascii "input"

/-- Why rows could not be told apart by their keys. -/
inductive KeyFailure where
  | shortRow (side : Side) (index width field : Nat)
  | repeatedKey (side : Side) (field : Nat) (key : Bytes)
deriving Repr, DecidableEq

def KeyFailure.message : KeyFailure → Bytes
  | .shortRow side index width field =>
      ascii "Row " ++ decimal index ++ ascii " of the " ++ side.name ++ ascii " data has "
        ++ decimal width ++ ascii " fields, so it has no join field " ++ decimal field
  | .repeatedKey side field key =>
      ascii "Duplicate data in join field " ++ decimal field ++ ascii " on the " ++ side.name
        ++ ascii " data: " ++ key

def rowKey (side : Side) (field index : Nat) (row : Row) : Except KeyFailure Bytes :=
  match row[field]? with
  | some key => .ok key
  | none => .error (.shortRow side index row.length field)

def keyRows (side : Side) (field : Nat) : (index : Nat) → Rows → Except KeyFailure (Keyed Row)
  | _, [] => .ok []
  | index, row :: rows => do
      let key ← rowKey side field index row
      let keyed ← keyRows side field (index + 1) rows
      return (key, row) :: keyed

/-- The rows from an index on with their keys, none of which is repeated or stands in `seen`. -/
def keyRowsUniquely (side : Side) (field : Nat) :
    (seen : List Bytes) → (index : Nat) → Rows → Except KeyFailure (Keyed Row)
  | _, _, [] => .ok []
  | seen, index, row :: rows => do
      let key ← rowKey side field index row
      if seen.contains key then
        throw (.repeatedKey side field key)
      let keyed ← keyRowsUniquely side field (key :: seen) (index + 1) rows
      return (key, row) :: keyed

/-- Adds a row to the group of its key, which is begun at the end if there is none. -/
def addToGroups (groups : Keyed Rows) (key : Bytes) (row : Row) : Keyed Rows :=
  match groups with
  | [] => [(key, [row])]
  | (other, rows) :: groups =>
      if other = key then (other, rows ++ [row]) :: groups
      else (other, rows) :: addToGroups groups key row

/-- Rows by key, in the order in which the keys first appear. -/
def groupRows (rows : Keyed Row) : Keyed Rows :=
  rows.foldl (fun groups entry => addToGroups groups entry.1 entry.2) []

def hasKey {α : Type} (entries : Keyed α) (key : Bytes) : Bool :=
  (entries.lookup key).isSome

def rowsWithout {α : Type} (others : Keyed α) (rows : Keyed Row) : Rows :=
  (rows.filter fun entry => !hasKey others entry.1).map Prod.snd

/-- A left row followed by a right row without its key. -/
def joinRow (rightField : Nat) (left right : Row) : Row :=
  left ++ right.eraseIdx rightField

/-- The joined rows, and the rows of either side that have no partner. -/
structure Joined where
  combined : Rows
  onlyLeft : Rows
  onlyRight : Rows
deriving Repr, DecidableEq

def strictJoin (left : Rows) (leftField : Nat) (right : Rows) (rightField : Nat) :
    Except KeyFailure Joined := do
  let left ← keyRowsUniquely .left leftField [] 0 left
  let right ← keyRowsUniquely .right rightField [] 0 right
  return {
    combined := right.filterMap fun entry =>
      (left.lookup entry.1).map fun row => joinRow rightField row entry.2
    onlyLeft := rowsWithout right left
    onlyRight := rowsWithout left right }

def multiJoin (left : Rows) (leftField : Nat) (right : Rows) (rightField : Nat) :
    Except KeyFailure Joined := do
  let left ← keyRows .left leftField 0 left
  let right ← keyRows .right rightField 0 right
  let leftGroups := groupRows left
  let rightGroups := groupRows right
  return {
    combined := leftGroups.flatMap fun group =>
      match rightGroups.lookup group.1 with
      | none => []
      | some partners =>
          group.2.flatMap fun row => partners.map fun partner => joinRow rightField row partner
    onlyLeft := rowsWithout rightGroups left
    onlyRight := rowsWithout leftGroups right }

/-- The groups of rows that share their key with another row, by first appearance. -/
def repeatedGroups (rows : Rows) (field : Nat) : Except KeyFailure (Keyed Rows) := do
  let keyed ← keyRows .input field 0 rows
  return (groupRows keyed).filter fun group => group.2.length > 1

/-- The rows that share their key with another row, by ascending key. -/
def duplicates (rows : Rows) (field : Nat) : Except KeyFailure (Keyed Rows) :=
  (repeatedGroups rows field).map Keyed.sort

/-- The rows that share their key with another row, in one list, by first appearance of the key. -/
def duplicateRows (rows : Rows) (field : Nat) : Except KeyFailure Rows :=
  (repeatedGroups rows field).map fun groups => groups.flatMap Prod.snd

end JsonTable
