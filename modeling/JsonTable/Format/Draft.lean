import JsonTable.Format.Operation
import JsonTable.Program

/-!
# Programs in the making

A `Draft` is what was found in the part of a format that was read: the levels
and line items that are open there, and the rules collected so far. Closed line
items form the end of the chain; as none may be opened after one was closed,
what is still open is what comes before them. A printed key goes before or after
the inner line items according to whether one was closed yet.

The steps of a compiler are those of a draft, which takes the operations from
the bytes that are left.
-/

namespace JsonTable

namespace Format

/-- A step whose bracket is open, and where it was opened. -/
structure Level where
  step : Step
  position : Nat
deriving Repr, DecidableEq

/-- The steps of open levels, of which the innermost is listed first. -/
def pathOf (levels : List Level) : Path :=
  (levels.map Level.step).reverse

/-- A line item whose bracket is open, with the levels that were open around it. -/
structure OpenItem where
  key : Bytes
  outer : List Level
  pre : List Rule
  post : List Rule
  position : Nat
deriving Repr, DecidableEq

def OpenItem.close (item : OpenItem) : LineItem :=
  ⟨pathOf item.outer, item.key, item.pre, item.post⟩

/-- A program in the making. Levels and open items are listed innermost first. -/
structure Draft where
  levels : List Level := []
  items : List OpenItem := []
  closed : List LineItem := []
  root : List Rule := []
  tail : List Rule := []
deriving Repr, DecidableEq

namespace Draft

def anyClosed (draft : Draft) : Bool :=
  !draft.closed.isEmpty

def addRule (draft : Draft) (rule : Rule) : Draft :=
  match draft.items, draft.anyClosed with
  | [], false => { draft with root := draft.root ++ [rule] }
  | [], true => { draft with tail := draft.tail ++ [rule] }
  | item :: items, false => { draft with items := { item with pre := item.pre ++ [rule] } :: items }
  | item :: items, true =>
      { draft with items := { item with post := item.post ++ [rule] } :: items }

/-- Closes the innermost open level, or else the innermost open line item. -/
def close? (draft : Draft) : Option Draft :=
  match draft.levels, draft.items with
  | _ :: levels, _ => some { draft with levels }
  | [], item :: items =>
      some { draft with levels := item.outer, items, closed := item.close :: draft.closed }
  | [], [] => none

/-- Carries out an operation that was read with `left` bytes left and stands at a position. -/
def apply (draft : Draft) (position left : Nat) : Operation → Except (Failure Cause) Draft
  | .descend step => .ok { draft with levels := ⟨step, position⟩ :: draft.levels }
  | .openItem key =>
      if draft.anyClosed then .error (.misuse (.chainComplete position))
      else
        .ok { draft with
          levels := [], items := ⟨key, draft.levels, [], [], position⟩ :: draft.items }
  | .print key => .ok (draft.addRule ⟨pathOf draft.levels, key⟩)
  | .close =>
      match draft.close? with
      | some draft => .ok draft
      | none => .error (.fault ⟨left, 1, .nothingToClose⟩)

/-- Refuses a draft with anything still open; the innermost bracket left open is at fault. -/
def checkClosed (size : Nat) (draft : Draft) : Except (Failure Cause) Unit :=
  match draft.levels, draft.items with
  | [], [] => .ok ()
  | level :: _, items =>
      let left := size - level.position
      .error (.fault ⟨left, left, .openLevels draft.levels.length level.step.key !items.isEmpty⟩)
  | [], item :: items =>
      let left := size - item.position
      .error (.fault ⟨left, left, .openLineItems ((item :: items).reverse.map OpenItem.key)⟩)

def toProgram (draft : Draft) (format : Bytes) (options : Options) : Program :=
  ⟨format, options, draft.root, draft.closed, draft.tail⟩

end Draft

/--
Carries out the operations of a text of `size` bytes, of which `text` is left.
Every operation takes at least one byte, so as many rounds as there are bytes,
and one more, are enough.
-/
def draftFrom (size : Nat) : (rounds : Nat) → Draft → Bytes → Except (Failure Cause) Draft
  | 0, draft, _ => .ok draft
  | rounds + 1, draft, text =>
      match skipBlanks text with
      | [] => .ok draft
      | b :: rest => do
          let (operation, after) ← readOperation draft.anyClosed b rest
          let left := rest.length + 1
          let draft ← draft.apply (size - left) left operation
          draftFrom size rounds draft after

/-- The draft that a whole text gives, with nothing left open. -/
def draftOf (text : Bytes) : Except (Failure Cause) Draft := do
  let draft ← draftFrom text.length (text.length + 1) {} text
  draft.checkClosed text.length
  return draft

end Format

end JsonTable
