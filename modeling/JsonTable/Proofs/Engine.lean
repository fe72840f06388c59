import JsonTable.Engine

/-!
# The engine makes the rows below each item

In place or not, the rows are the same, and so are the notes: a line item leaves the rows
that are already there as they are, and adds those below its items. No value without a text
is ever shown, so that an extraction never ends in a misuse.
-/

namespace JsonTable

section Lift

variable {α β : Type}

theorem mapM_lift (f : α → Traced β) (xs : List α) :
    xs.mapM (fun x => (liftM (f x) : Extracting β)) = liftM (xs.mapM f) := by
  induction xs with
  | nil => simp
  | cons x xs ih => simp [ih]

/-- Groups that are added one after the other have been added together in the end. -/
theorem foldlM_append_lift (f : α → Traced (List β)) (xs : List α) (out : List β) :
    xs.foldlM (fun out x => (out ++ ·) <$> (liftM (f x) : Extracting (List β))) out =
      (fun groups => out ++ groups.flatten) <$> (liftM (xs.mapM f) : Extracting _) := by
  induction xs generalizing out with
  | nil => simp
  | cons x xs ih => simp [ih]

end Lift

variable {options : Options}

/-! ## Cells -/

theorem Rule.fill_eq (rule : Rule) (context : Document) :
    rule.fill options context = liftM (rule.evaluate options context) := by
  rw [fill, evaluate, cell]
  cases rule.value context with
  | error gap => simp [Except.map]
  | ok value =>
      simp only [Document.cellText_of_hasText value.2, Except.map]
      rfl

theorem Rule.text_eq_ok (rule : Rule) (context : Document) :
    rule.text options context = .ok (rule.evaluate options context).value := by
  rw [text, fill_eq]
  rfl

theorem fillRules_eq (rules : List Rule) (context : Document) :
    fillRules options rules context = liftM (evaluateRules options rules context) := by
  simp only [fillRules, Rule.fill_eq, mapM_lift, evaluateRules]

/-! ## Rows -/

/-- Rows before the index are left as they are. -/
theorem completeFrom_append (before rows : Rows) (cells : Row) :
    completeFrom before.length cells (before ++ rows) = before ++ rows.map (· ++ cells) := by
  rw [completeFrom, List.mapIdx_append]
  congr 1
  · apply List.ext_getElem
    · simp
    · intro index hindex hindex'
      simp [Nat.not_le.mpr hindex']
  · apply List.ext_getElem
    · simp
    · intro index hindex hindex'
      simp

/-- Without rules there are no cells to add and no notes to take. -/
theorem complete_append (options : Options) (rules : List Rule) (x : Document)
    (before rows : Rows) :
    complete options rules x before.length (before ++ rows) =
      (before ++ ·) <$> (liftM (completed options rules x rows) : Extracting Rows) := by
  cases rows with
  | nil => simp [complete, completed]
  | cons row rows =>
      cases rules with
      | nil => simp [complete, completed, evaluateRules]
      | cons rule rules => simp [complete, completed, fillRules_eq, completeFrom_append]

/-- The rows that are there already are a frame: those of the line item are added to them. -/
theorem LineItem.follow_eq (item : LineItem) (below : List LineItem) (existing : Row)
    (context : Document) (out : Rows) :
    item.follow options below existing context out =
      (out ++ ·) <$>
        (liftM (rowsBelow options (item :: below) existing context) : Extracting Rows) := by
  induction below generalizing item existing context out with
  | nil =>
      have hstep (out : Rows) (x : Document) :
          (do
            let pre ← fillRules options item.pre x
            let post ← fillRules options item.post x
            return out ++ [existing ++ pre ++ post] : Extracting Rows) =
          (out ++ ·) <$> (liftM (do
            let pre ← evaluateRules options item.pre x
            let rows ← rowsBelow options [] (existing ++ pre) x
            completed options item.post x rows) : Extracting Rows) := by
        simp [fillRules_eq, rowsBelow, completed]
      rw [follow, rowsBelow]
      simp only [hstep, foldlM_append_lift]
      simp
  | cons child below ih =>
      have hstep (out : Rows) (x : Document) :
          (do
            let pre ← fillRules options item.pre x
            let first := out.length
            let out ← child.follow options below (existing ++ pre) x out
            complete options item.post x first out : Extracting Rows) =
          (out ++ ·) <$> (liftM (do
            let pre ← evaluateRules options item.pre x
            let rows ← rowsBelow options (child :: below) (existing ++ pre) x
            completed options item.post x rows) : Extracting Rows) := by
        simp only [fillRules_eq, ih, bind_map_left, complete_append, liftM_bind, map_bind]
      rw [follow, rowsBelow]
      simp only [hstep, foldlM_append_lift]
      simp

theorem Program.run_eq (program : Program) (document : Document) :
    program.run document = liftM (program.extract document) := by
  have htail (rows : Rows) : complete program.options program.tail document 0 rows =
      liftM (completed program.options program.tail document rows) := by
    simpa using complete_append program.options program.tail document [] rows
  rw [run, extract]
  cases program.chain with
  | nil => simp [fillRules_eq, htail, rowsBelow]
  | cons item below => simp [fillRules_eq, htail, LineItem.follow_eq]

end JsonTable
