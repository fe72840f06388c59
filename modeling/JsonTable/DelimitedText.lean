import JsonTable.Extraction

/-!
# Delimited text

A table as text: the cells of a row with a separator between them, the rows
with a line separator between them, and nothing after the last row. Cells are
written as they are, or all of them between double quotes with the quotes
within doubled. Smart quoting decides for the table as a whole: if one cell
holds the separator or a byte that ends a line, all cells are quoted.
-/

namespace JsonTable

open Bytes

inductive Quoting where
  | never
  | always
  | smart
deriving Repr, DecidableEq

namespace Quoting

def name : Quoting → Bytes
  | .never => ascii "never"
  | .always => ascii "always"
  | .smart => ascii "smart"

def ofName? (text : Bytes) : Option Quoting :=
  [never, always, smart].find? fun quoting => quoting.name == text

@[simp]
theorem ofName?_name (quoting : Quoting) : ofName? quoting.name = some quoting := by
  cases quoting <;> decide

end Quoting

/-- Whether a cell, written as it is, could be taken for more than one. -/
def cellNeedsQuoting (separator cell : Bytes) : Bool :=
  cell.any (fun b => b == Byte.carriageReturn || b == Byte.lineFeed)
    || !separator.isEmpty && occursIn separator cell

def needsQuoting (separator : Bytes) (rows : Rows) : Bool :=
  rows.any fun row => row.any (cellNeedsQuoting separator)

/-- A cell between double quotes, with those within it doubled. -/
def quoteCell (cell : Bytes) : Bytes :=
  Byte.quote
    :: cell.flatMap (fun b => if b = Byte.quote then [Byte.quote, Byte.quote] else [b])
    ++ [Byte.quote]

structure TextStyle where
  separator : Bytes := [Byte.comma]
  lineSeparator : Bytes := [Byte.carriageReturn, Byte.lineFeed]
  quoting : Quoting := .smart
deriving Repr, DecidableEq

namespace TextStyle

def quotes (style : TextStyle) (rows : Rows) : Bool :=
  match style.quoting with
  | .never => false
  | .always => true
  | .smart => needsQuoting style.separator rows

def line (style : TextStyle) (quoted : Bool) (row : Row) : Bytes :=
  style.separator.intercalate (if quoted then row.map quoteCell else row)

def lines (style : TextStyle) (rows : Rows) : List Bytes :=
  rows.map (style.line (style.quotes rows))

def text (style : TextStyle) (rows : Rows) : Bytes :=
  style.lineSeparator.intercalate (style.lines rows)

end TextStyle

def Program.toText (program : Program) (style : TextStyle) (document : Document) :
    Traced Bytes := do
  return style.text (← program.extract document)

end JsonTable
