import JsonTable.Proofs.Columns
import JsonTable.Proofs.Format.Denotation

/-!
# Columns and formats

The columns of a compiled program are those of the forest that the format shows,
from left to right. What stands after a line item in the format goes into other
lists than what stands before it, and the cells of these lists are put on a row
at another time, but to the right of those of the line item.
-/

namespace JsonTable.Format

mutual

/-- The columns of a node that has `depth` line items around it, the innermost left by `path`. -/
def Node.columns (depth : Nat) (path : Path) : Node → List Column
  | .print key => [⟨depth, ⟨path, key⟩⟩]
  | .step step nodes => columns depth (path ++ [step]) nodes
  | .item _ nodes => columns (depth + 1) [] nodes

def columns (depth : Nat) (path : Path) : List Node → List Column
  | [] => []
  | node :: nodes => node.columns depth path ++ columns depth path nodes

end

def Content.columns (depth : Nat) (c : Content) : List Column :=
  columnsAt depth c.before ++ chainColumns (depth + 1) c.chain ++ columnsAt depth c.after

/-- Side by side the columns stay in order, if at most one of the contents has line items. -/
theorem Content.columns_append {a b : Content} {depth : Nat} (ha : a.Plain) (hb : b.Plain)
    (hone : a.chain = [] ∨ b.chain = []) :
    (a.append b).columns depth = a.columns depth ++ b.columns depth := by
  by_cases hchain : a.chain = []
  · rw [append_of_nil hchain]
    simp [columns, hchain, ha hchain, chainColumns, columnsAt]
  · have hnone : b.chain = [] := hone.resolve_left hchain
    rw [append_of_ne_nil hchain]
    simp [columns, hnone, hb hnone, chainColumns, columnsAt]

mutual

theorem Node.columns_content :
    (node : Node) → (depth : Nat) → (path : Path) → Linear node.itemAddresses →
      (node.content path).columns depth = node.columns depth path
  | .print _, _, _, _ => rfl
  | .step step nodes, depth, path, h => columns_content nodes depth (path ++ [step]) h
  | .item key nodes, depth, path, h => by
      have hnodes : Linear (itemAddresses 0 nodes) := linear_root_cons.mp h
      have hinner := columns_content nodes (depth + 1) [] hnodes
      simpa [Node.content, Node.columns, Content.columns, chainColumns, columnsAt] using hinner

theorem columns_content :
    (nodes : List Node) → (depth : Nat) → (path : Path) → {first : Nat} →
      Linear (itemAddresses first nodes) →
      (content path nodes).columns depth = columns depth path nodes
  | [], _, _, _, _ => rfl
  | node :: nodes, depth, path, first, h => by
      obtain ⟨hnode, hnodes, hone⟩ := linear_itemAddresses_cons.mp h
      have hchain : (node.content path).chain = [] ∨ (content path nodes).chain = [] :=
        hone.imp node.content_chain_eq_nil_iff.mpr (content_chain_eq_nil_iff nodes).mpr
      rw [content, columns,
        Content.columns_append (node.content_plain path) (content_plain nodes path) hchain,
        node.columns_content depth path hnode, columns_content nodes depth path hnodes]

end

theorem columns_programOf {nodes : List Node} {format : Bytes} {options : Options}
    (h : OnOnePath nodes) :
    (programOf nodes format options).columns = columns 0 [] nodes :=
  columns_content nodes 0 [] h

theorem columns_eq_of_renders {nodes : List Node} {format : Bytes} {options : Options}
    {program : Program} (hprogram : Program.ofFormat format options = .ok program)
    (hrenders : Renders nodes format) :
    columns 0 [] nodes = program.columns := by
  obtain ⟨draft, hdraft, rfl⟩ := ofFormat_eq_ok_iff_draftOf.mp hprogram
  obtain ⟨hpath, rfl⟩ := (draftOf_of_renders hrenders).mp hdraft
  rw [toProgram_eq_programOf]
  exact (columns_programOf hpath).symm

theorem options_of_ofFormat {format : Bytes} {options : Options} {program : Program}
    (hprogram : Program.ofFormat format options = .ok program) : program.options = options := by
  obtain ⟨draft, _, rfl⟩ := ofFormat_eq_ok_iff_draftOf.mp hprogram
  rfl

/--
The columns are the printed keys of the format from left to right, and each row
has the cells of these for one choice of items: a key inside of `m` line items
shows the `m`th item of the choice, and a key outside of all shows the document.
-/
theorem rows_follow_format {format : Bytes} {options : Options} {program : Program}
    (h : Program.ofFormat format options = .ok program) :
    (∃ nodes, Renders nodes format) ∧
      ∀ nodes, Renders nodes format →
        columns 0 [] nodes = program.columns ∧
          (columns 0 [] nodes).length = program.columnCount ∧
          ∀ document, ∀ row ∈ (program.extract document).value,
            row.length = program.columnCount ∧
              ∃ choice, Chosen program.chain document choice ∧
                choice.length = program.depth ∧
                ∀ (j : Nat) (column : Column), (columns 0 [] nodes)[j]? = some column →
                  ∃ context, (document :: choice)[column.depth]? = some context ∧
                    row[j]? = some (column.rule.evaluate options context).value := by
  have hnodes : ∃ nodes, Renders nodes format := by
    obtain ⟨draft, hdraft, _⟩ := ofFormat_eq_ok_iff_draftOf.mp h
    exact exists_renders hdraft
  refine ⟨hnodes, fun nodes hrenders => ?_⟩
  have hcolumns := columns_eq_of_renders h hrenders
  refine ⟨hcolumns, hcolumns ▸ program.length_columns, fun document row hrow => ?_⟩
  rw [Program.value_extract_eq_rows] at hrow
  obtain ⟨choice, hchosen, hcells⟩ := Program.exists_chosen_of_mem_rows hrow
  have hlength : row.length = program.columnCount := by
    rw [← program.length_columns]
    simpa using congrArg List.length hcells
  refine ⟨hlength, choice, hchosen, hchosen.length_eq, fun j column hcolumn => ?_⟩
  have hcell : (row.map some)[j]? = some (column.cell program.options (document :: choice)) := by
    rw [hcells, List.getElem?_map, ← hcolumns, hcolumn, Option.map_some]
  rw [List.getElem?_map, Option.map_eq_some_iff] at hcell
  obtain ⟨cell, hrowcell, hcell⟩ := hcell
  obtain ⟨context, hcontext, rfl⟩ := Option.map_eq_some_iff.mp hcell.symm
  exact ⟨context, hcontext, options_of_ofFormat h ▸ hrowcell⟩

open Bytes in
/-- Keys on both sides of nested line items. -/
theorem rows_follow_nested_format :
    ∃ program,
      Program.ofFormat (ascii "\"a\" +\"b\"[\"c\" +\"d\"[\"e\"] \"f\"] \"g\"") {} = .ok program ∧
        ∃ nodes, Renders nodes (ascii "\"a\" +\"b\"[\"c\" +\"d\"[\"e\"] \"f\"] \"g\"") ∧
          columns 0 [] nodes =
            [⟨0, [], ascii "a"⟩, ⟨1, [], ascii "c"⟩, ⟨2, [], ascii "e"⟩, ⟨1, [], ascii "f"⟩,
              ⟨0, [], ascii "g"⟩] := by
  refine ⟨_, rfl, ?_⟩
  obtain ⟨⟨nodes, hnodes⟩, hrows⟩ := rows_follow_format
    (show Program.ofFormat (ascii "\"a\" +\"b\"[\"c\" +\"d\"[\"e\"] \"f\"] \"g\"") {} = .ok _ from rfl)
  exact ⟨nodes, hnodes, (hrows nodes hnodes).1⟩

end JsonTable.Format
