import JsonTable.Json.Cursor
import JsonTable.Table
import JsonTable.Trace

/-!
# Extraction

`Program.extract` makes the table that a program describes from a document. A
row holds the cells of the root rules, of one item of each line item, and of
the tail rules. The items of the outermost array vary slowest. A line item
whose array cannot be found contributes no rows, and what stands after a line
item is evaluated only for items that gave rows.

With debugging on, each gap and each array not found leaves a note, in the
order of evaluation.
-/

namespace JsonTable

/-- The text of a cell: what the rule shows, or the text for gaps. -/
def Rule.evaluate (options : Options) (rule : Rule) (context : Document) : Traced Bytes :=
  match rule.cell context with
  | .ok text => pure text
  | .error gap => do
      Traced.note options (.gap gap)
      return options.nullText

@[simp]
theorem Rule.value_evaluate (options : Options) (rule : Rule) (context : Document) :
    (rule.evaluate options context).value =
      (rule.cell context).toOption.getD options.nullText := by
  unfold evaluate
  cases rule.cell context <;> rfl

@[simp]
theorem Rule.notes_evaluate (options : Options) (rule : Rule) (context : Document) :
    (rule.evaluate options context).notes =
      match rule.cell context with
      | .ok _ => []
      | .error gap => if options.debug then [.gap gap] else [] := by
  unfold evaluate
  cases rule.cell context <;> simp

def evaluateRules (options : Options) (rules : List Rule) (context : Document) : Traced Row :=
  rules.mapM fun rule => rule.evaluate options context

/-- The rows, each followed by the cells of some rules; these are evaluated only if there is one. -/
def completed (options : Options) (rules : List Rule) (context : Document) (rows : Rows) :
    Traced Rows :=
  if rows.isEmpty then
    return []
  else do
    let cells ← evaluateRules options rules context
    return rows.map (· ++ cells)

theorem value_completed (options : Options) (rules : List Rule) (context : Document)
    (rows : Rows) :
    (completed options rules context rows).value =
      rows.map (· ++ (evaluateRules options rules context).value) := by
  unfold completed
  split
  · next h => simp [List.isEmpty_iff.mp h]
  · rfl

namespace LineItem

def items (item : LineItem) (context : Document) : Except NoArray (List Document) :=
  match item.path.descend context with
  | .error reason => .error (.blocked item.key reason)
  | .ok landing =>
      match landing.lookup item.key with
      | none => .error (.missing item.key item.path)
      | some (.array items) => .ok items
      | some other => .error (.notAnArray item.key other.kind)

/-- The items of a line item's array, or none and a note. -/
def itemsOrNone (options : Options) (item : LineItem) (context : Document) :
    Traced (List Document) :=
  match item.items context with
  | .ok items => pure items
  | .error reason => do
      Traced.note options (.noArray reason)
      return []

end LineItem

/-- The rows that begin with the cells `row`, one for each choice of items down the chain. -/
def rowsBelow (options : Options) : List LineItem → Row → Document → Traced Rows
  | [], row, _ => pure [row]
  | item :: chain, row, context => do
      let items ← item.itemsOrNone options context
      let groups ← items.mapM fun x => do
        let pre ← evaluateRules options item.pre x
        let rows ← rowsBelow options chain (row ++ pre) x
        completed options item.post x rows
      return groups.flatten

theorem value_rowsBelow_cons (options : Options) (item : LineItem) (chain : List LineItem)
    (row : Row) (context : Document) :
    (rowsBelow options (item :: chain) row context).value =
      (item.itemsOrNone options context).value.flatMap fun x =>
        (rowsBelow options chain (row ++ (evaluateRules options item.pre x).value) x).value.map
          (· ++ (evaluateRules options item.post x).value) := by
  simp only [rowsBelow, Traced.value_bind, Traced.value_mapM, Traced.value_pure, value_completed,
    List.flatMap]

namespace Program

def extract (program : Program) (document : Document) : Traced Rows := do
  let root ← evaluateRules program.options program.root document
  let rows ← rowsBelow program.options program.chain root document
  completed program.options program.tail document rows

def extractText (program : Program) (text : Bytes) : Except Refusal (Traced Rows) :=
  (Document.ofText text).map program.extract

end Program

end JsonTable
