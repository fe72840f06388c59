import JsonTable.Bytes

/-!
# Tables

A table is a list of rows, and a row is a list of cells. Rows of one table may
differ in length unless something else is said.
-/

namespace JsonTable

abbrev Row := List Bytes

abbrev Rows := List Row

end JsonTable
