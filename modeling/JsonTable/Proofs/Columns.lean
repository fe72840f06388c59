import JsonTable.Proofs.Comprehension

/-!
# Columns

A row of a program's table has one cell for each of `Program.columns`. Which
context a cell comes from depends on how many line items are around its rule:
none for the document, `m` for the item that was chosen from the `m`th array.
-/

namespace JsonTable

/-- A column: a rule, and how many line items are around it. -/
structure Column where
  depth : Nat
  rule : Rule
deriving Repr, DecidableEq

def columnsAt (depth : Nat) (rules : List Rule) : List Column :=
  rules.map fun rule => ⟨depth, rule⟩

/-- The columns of a chain whose outermost rules have `depth` line items around them. -/
def chainColumns (depth : Nat) : List LineItem → List Column
  | [] => []
  | item :: below =>
      columnsAt depth item.pre ++ chainColumns (depth + 1) below ++ columnsAt depth item.post

def Program.columns (program : Program) : List Column :=
  columnsAt 0 program.root ++ chainColumns 1 program.chain ++ columnsAt 0 program.tail

/-- One item of each array on the way down a chain, outermost first. -/
inductive Chosen : List LineItem → Document → List Document → Prop where
  | nil {context : Document} : Chosen [] context []
  | cons {item : LineItem} {below : List LineItem} {context x : Document}
      {choice : List Document} :
      x ∈ item.array context → Chosen below x choice →
      Chosen (item :: below) context (x :: choice)

def Column.cell (options : Options) (contexts : List Document) (column : Column) :
    Option Bytes :=
  contexts[column.depth]?.map fun context => (column.rule.evaluate options context).value

variable {options : Options}

theorem Chosen.length_eq {chain : List LineItem} {context : Document} {choice : List Document}
    (h : Chosen chain context choice) : choice.length = chain.length := by
  induction h with
  | nil => rfl
  | cons _ _ ih => simp [ih]

theorem length_columnsAt (depth : Nat) (rules : List Rule) :
    (columnsAt depth rules).length = rules.length := by
  simp [columnsAt]

theorem length_chainColumns (depth : Nat) (chain : List LineItem) :
    (chainColumns depth chain).length = (chain.flatMap LineItem.rules).length := by
  induction chain generalizing depth with
  | nil => rfl
  | cons item below ih =>
      simp only [chainColumns, List.length_append, length_columnsAt, ih, List.flatMap_cons,
        LineItem.rules]
      omega

theorem Program.length_columns (program : Program) :
    program.columns.length = program.columnCount := by
  simp [columns, columnCount, rules, length_columnsAt, length_chainColumns]

theorem map_some_cells {depth : Nat} {contexts : List Document} {context : Document}
    (h : contexts[depth]? = some context) (rules : List Rule) :
    (cells options rules context).map some =
      (columnsAt depth rules).map (Column.cell options contexts) := by
  simp [cells, columnsAt, Column.cell, h, Function.comp_def]

/-- Every row of a line item comes from a choice of items, after the contexts `around` it. -/
theorem exists_chosen_of_mem_rows {item : LineItem} {below : List LineItem} {context : Document}
    {row : Row} (around : List Document) (h : row ∈ item.rows options below context) :
    ∃ choice, Chosen (item :: below) context choice ∧
      row.map some =
        (chainColumns around.length (item :: below)).map
          (Column.cell options (around ++ choice)) := by
  induction below generalizing item context row around with
  | nil =>
      rw [LineItem.rows, List.mem_flatMap] at h
      obtain ⟨x, hx, hrow⟩ := h
      rw [List.mem_singleton] at hrow
      subst hrow
      have hhere : (around ++ [x])[around.length]? = some x := by simp
      refine ⟨[x], .cons hx .nil, ?_⟩
      simp [chainColumns, map_some_cells hhere]
  | cons child below ih =>
      -- The item chosen here is one more context around the rows below.
      rw [LineItem.rows, List.mem_flatMap] at h
      obtain ⟨x, hx, hrow⟩ := h
      obtain ⟨inner, hinner, rfl⟩ := List.mem_map.mp hrow
      obtain ⟨choice, hchosen, hcells⟩ := ih (around ++ [x]) hinner
      have hhere : (around ++ x :: choice)[around.length]? = some x := by simp
      refine ⟨x :: choice, .cons hx hchosen, ?_⟩
      rw [List.append_assoc, List.singleton_append, List.length_append] at hcells
      rw [chainColumns]
      simp only [List.map_append, map_some_cells hhere, hcells, List.length_singleton]

/-- Every row of a table comes from a choice of items, and has one cell for each column. -/
theorem Program.exists_chosen_of_mem_rows {program : Program} {document : Document} {row : Row}
    (h : row ∈ program.rows document) :
    ∃ choice, Chosen program.chain document choice ∧
      row.map some =
        program.columns.map (Column.cell program.options (document :: choice)) := by
  have hroot (choice : List Document) : (document :: choice)[0]? = some document := rfl
  rw [rows] at h
  rw [columns]
  split at h
  · next hchain =>
      rw [List.mem_singleton] at h
      subst h
      refine ⟨[], hchain ▸ .nil, ?_⟩
      simp [hchain, chainColumns, map_some_cells (hroot [])]
  · next item below hchain =>
      obtain ⟨inner, hinner, rfl⟩ := List.mem_map.mp h
      obtain ⟨choice, hchosen, hcells⟩ :=
        JsonTable.exists_chosen_of_mem_rows [document] hinner
      refine ⟨choice, hchain ▸ hchosen, ?_⟩
      rw [List.length_singleton, List.singleton_append] at hcells
      simp only [hchain, List.map_append, map_some_cells (hroot choice), hcells]

end JsonTable
