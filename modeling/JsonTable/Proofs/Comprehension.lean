import JsonTable.Proofs.Engine

/-!
# Extraction as a comprehension

The engine hands the cells of outer items down while it goes through the arrays,
and puts the cells after a line item on rows that were made before. Its table is
nevertheless the plain comprehension over the items: `Program.rows`. Cells are
the same as those of `Rule.text`, which would report it if a value without a
text were ever shown.
-/

namespace JsonTable

variable {options : Options}

def cells (options : Options) (rules : List Rule) (context : Document) : Row :=
  rules.map fun rule => (rule.evaluate options context).value

namespace LineItem

/-- The items of the array that is reached, and none if no array is. -/
def array (item : LineItem) (context : Document) : List Document :=
  match item.path.descend context with
  | .error _ => []
  | .ok landing =>
      match landing.lookup item.key with
      | some (.array items) => items
      | _ => []

/-- The rows of a line item, with the line items `below` it in its items. -/
def rows (options : Options) : LineItem → (below : List LineItem) → Document → Rows
  | item, [], context =>
      (item.array context).flatMap fun x => [cells options item.pre x ++ cells options item.post x]
  | item, child :: below, context =>
      (item.array context).flatMap fun x =>
        (child.rows options below x).map fun row =>
          cells options item.pre x ++ row ++ cells options item.post x

end LineItem

def Program.rows (program : Program) (document : Document) : Rows :=
  match program.chain with
  | [] => [cells program.options program.root document
      ++ cells program.options program.tail document]
  | item :: below =>
      (item.rows program.options below document).map fun row =>
        cells program.options program.root document ++ row
          ++ cells program.options program.tail document

theorem value_evaluateRules_eq_cells (rules : List Rule) (context : Document) :
    (evaluateRules options rules context).value = cells options rules context := by
  simp [evaluateRules, cells]

theorem LineItem.value_itemsOrNone (item : LineItem) (context : Document) :
    (item.itemsOrNone options context).value = item.array context := by
  rw [itemsOrNone, items, array]
  cases item.path.descend context with
  | error reason => rfl
  | ok landing =>
      dsimp only
      cases landing.lookup item.key with
      | none => rfl
      | some value => cases value <;> rfl

/-- The cells handed down stand before what the line items below give, whatever they are. -/
theorem value_rowsBelow (item : LineItem) (below : List LineItem) (row : Row)
    (context : Document) :
    (rowsBelow options (item :: below) row context).value =
      (item.rows options below context).map (row ++ ·) := by
  -- The cells handed down differ from item to item, so the claim is about any of them.
  induction below generalizing item row context with
  | nil =>
      rw [value_rowsBelow_cons, LineItem.value_itemsOrNone, LineItem.rows]
      simp [rowsBelow, value_evaluateRules_eq_cells, List.map_flatMap]
  | cons child below ih =>
      rw [value_rowsBelow_cons, LineItem.value_itemsOrNone, LineItem.rows]
      simp [ih, value_evaluateRules_eq_cells, List.map_flatMap, Function.comp_def]

/-- The tail is left out only where there is no row to put it on. -/
theorem Program.value_extract (program : Program) (document : Document) :
    (program.extract document).value =
      (rowsBelow program.options program.chain
        (cells program.options program.root document) document).value.map
          (· ++ cells program.options program.tail document) := by
  simp only [extract, Traced.value_bind, value_completed, value_evaluateRules_eq_cells]

theorem Program.value_extract_eq_rows (program : Program) (document : Document) :
    (program.extract document).value = program.rows document := by
  rw [Program.value_extract, Program.rows]
  cases program.chain with
  | nil => simp [rowsBelow]
  | cons item below => simp [value_rowsBelow, Function.comp_def]

/--
An extraction never ends in a misuse, and its table is the comprehension over the items. The
rows that are there before a line item is followed stay as they are, whatever they are, and
those of the comprehension come after them, each behind the cells handed down.
-/
theorem extract_eq_comprehension (program : Program) (document : Document) :
    (program.run document).run.value = .ok (program.rows document) ∧
    (∀ (item : LineItem) below existing context out,
      (item.follow program.options below existing context out).run.value =
        .ok (out ++ (item.rows program.options below context).map (existing ++ ·))) ∧
    (∀ rule context, Rule.text program.options rule context =
      .ok (rule.evaluate program.options context).value) ∧
    (program.run document).run.notes = (program.extract document).notes ∧
    (program.extract document).value = program.rows document := by
  refine ⟨?_, fun item below existing context out => ?_, fun rule => rule.text_eq_ok, ?_,
    program.value_extract_eq_rows document⟩
  · rw [program.run_eq, ← program.value_extract_eq_rows]
    rfl
  · rw [item.follow_eq, ← value_rowsBelow]
    rfl
  · rw [program.run_eq]
    exact Traced.notes_map _ _

end JsonTable
