import JsonTable.Extraction

/-!
# The engine

How a table is made in place. One list of rows is handed through all line items and
grows at its end; the cells of the outer items are handed down. What stands after a
line item is put on the rows that were added since its item was begun, which are
those from an index on that was taken before.

Showing a value that has no text would be a misuse, which ends an extraction.
-/

namespace JsonTable

/-- An extraction under way: it takes notes, and may end in a misuse. -/
abbrev Extracting := ExceptT Misuse Traced

def Rule.fill (options : Options) (rule : Rule) (context : Document) : Extracting Bytes :=
  match rule.value context with
  | .ok value => liftM value.1.cellText
  | .error gap => do
      Traced.note options (.gap gap)
      return options.nullText

def Rule.text (options : Options) (rule : Rule) (context : Document) : Except Misuse Bytes :=
  (rule.fill options context).run.value

def fillRules (options : Options) (rules : List Rule) (context : Document) : Extracting Row :=
  rules.mapM fun rule => rule.fill options context

/-- Puts cells at the end of all rows from an index on. -/
def completeFrom (first : Nat) (cells : Row) (out : Rows) : Rows :=
  out.mapIdx fun index row => if first ≤ index then row ++ cells else row

/--
Completes the rows from an index on with the cells of some rules. These are left out where
there is nothing to do.
-/
def complete (options : Options) (rules : List Rule) (context : Document) (first : Nat)
    (out : Rows) : Extracting Rows :=
  if rules.isEmpty || out.length = first then
    return out
  else do
    let cells ← fillRules options rules context
    return completeFrom first cells out

/--
Adds the rows of a line item to `out`, and those of the line items `below` it in its items.
Each begins with the cells `existing`.
-/
def LineItem.follow (options : Options) : (item : LineItem) → (below : List LineItem) →
    (existing : Row) → Document → (out : Rows) → Extracting Rows
  | item, [], existing, context, out => do
      let items ← item.itemsOrNone options context
      items.foldlM (fun out x => do
        let pre ← fillRules options item.pre x
        let post ← fillRules options item.post x
        return out ++ [existing ++ pre ++ post]) out
  | item, child :: below, existing, context, out => do
      let items ← item.itemsOrNone options context
      items.foldlM (fun out x => do
        let pre ← fillRules options item.pre x
        let first := out.length
        let out ← child.follow options below (existing ++ pre) x out
        complete options item.post x first out) out

def Program.run (program : Program) (document : Document) : Extracting Rows := do
  let base ← fillRules program.options program.root document
  let rows ← match program.chain with
    | [] => pure [base]
    | item :: below => item.follow program.options below base document []
  complete program.options program.tail document 0 rows

end JsonTable
