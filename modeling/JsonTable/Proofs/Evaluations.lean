import JsonTable.Proofs.Comprehension

/-!
# Evaluations

Which rules fill the cells of a table, and in which contexts, depends on the structure of
the program and on the document, not on how a cell is shown. `Program.evaluations` is the
table of these; the table of texts shows each of its evaluations.
-/

namespace JsonTable

structure Evaluation where
  rule : Rule
  context : Document
deriving Repr, DecidableEq

def Evaluation.text (options : Options) (evaluation : Evaluation) : Bytes :=
  (evaluation.rule.evaluate options evaluation.context).value

def evaluations (rules : List Rule) (context : Document) : List Evaluation :=
  rules.map fun rule => ⟨rule, context⟩

/-- The evaluations behind the rows of a chain, one row for each choice of items down it. -/
def chainEvaluations : List LineItem → Document → List (List Evaluation)
  | [], _ => [[]]
  | item :: below, context =>
      (item.array context).flatMap fun x =>
        (chainEvaluations below x).map fun row =>
          evaluations item.pre x ++ row ++ evaluations item.post x

def Program.evaluations (program : Program) (document : Document) : List (List Evaluation) :=
  (chainEvaluations program.chain document).map fun row =>
    JsonTable.evaluations program.root document ++ row
      ++ JsonTable.evaluations program.tail document

theorem map_chainEvaluations_cons {α : Type} (f : Evaluation → α) (item : LineItem)
    (below : List LineItem) (context : Document) :
    (chainEvaluations (item :: below) context).map (List.map f) =
      (item.array context).flatMap fun x =>
        ((chainEvaluations below x).map (List.map f)).map fun row =>
          (evaluations item.pre x).map f ++ row ++ (evaluations item.post x).map f := by
  rw [chainEvaluations]
  simp [List.map_flatMap, Function.comp_def]

theorem Program.map_evaluations {α : Type} (f : Evaluation → α) (program : Program)
    (document : Document) :
    (program.evaluations document).map (List.map f) =
      ((chainEvaluations program.chain document).map (List.map f)).map fun row =>
        (JsonTable.evaluations program.root document).map f ++ row
          ++ (JsonTable.evaluations program.tail document).map f := by
  rw [Program.evaluations]
  simp [Function.comp_def]

variable {options : Options}

@[simp]
theorem map_text_evaluations (rules : List Rule) (context : Document) :
    (evaluations rules context).map (Evaluation.text options) = cells options rules context := by
  simp [evaluations, cells, Evaluation.text]

theorem LineItem.rows_eq_map_evaluations (item : LineItem) (below : List LineItem)
    (context : Document) :
    item.rows options below context =
      (chainEvaluations (item :: below) context).map (List.map (Evaluation.text options)) := by
  induction below generalizing item context with
  | nil =>
      rw [LineItem.rows, map_chainEvaluations_cons]
      simp [chainEvaluations]
  | cons child below ih =>
      rw [LineItem.rows, map_chainEvaluations_cons]
      simp only [ih, map_text_evaluations]

/-- The rows below some cells are those cells, each time followed by what the chain shows. -/
theorem value_rowsBelow_eq_map (chain : List LineItem) (row : Row) (context : Document) :
    (rowsBelow options chain row context).value =
      (chainEvaluations chain context).map fun inner =>
        row ++ inner.map (Evaluation.text options) := by
  cases chain with
  | nil => simp [rowsBelow, chainEvaluations]
  | cons item below =>
      rw [value_rowsBelow, LineItem.rows_eq_map_evaluations, List.map_map]
      rfl

theorem Program.value_extract_eq_map (program : Program) (document : Document) :
    (program.extract document).value =
      (program.evaluations document).map (List.map (Evaluation.text program.options)) := by
  rw [Program.value_extract, value_rowsBelow_eq_map, Program.map_evaluations]
  simp [Function.comp_def]

end JsonTable
