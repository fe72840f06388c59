import JsonTable.Rule

/-!
# Programs

A program is what a format means: the columns of a table and the arrays whose
items make its rows. The line items form one chain, outermost first; the array
of each is looked up in an item of the array before it, that of the first in
the document. The columns of a row are the root rules, then for each line item
from the outside in its rules `pre`, then from the inside out its rules `post`,
then the tail rules.
-/

namespace JsonTable

open Bytes

/-- A repeating array: where it is, and what each of its items adds to a row. -/
structure LineItem where
  path : Path
  key : Bytes
  pre : List Rule
  post : List Rule
deriving Repr, DecidableEq

def LineItem.rules (item : LineItem) : List Rule :=
  item.pre ++ item.post

/-- The columns of a table, the arrays that its rows come from, and the format it was read from. -/
structure Program where
  format : Bytes
  options : Options
  root : List Rule
  chain : List LineItem
  tail : List Rule
deriving Repr, DecidableEq

def dumpRules (indent : Nat) (label : Bytes) (rules : List Rule) : Bytes :=
  rules.flatMap fun rule =>
    List.replicate indent Byte.space ++ label ++ ascii " [" ++ rule.path.toBytes ++ ascii "] "
      ++ inQuotes rule.key ++ [Byte.lineFeed]

/-- A line for each line item, indented by its depth, followed by its rules. -/
def dumpChain (indent : Nat) : List LineItem → Bytes
  | [] => []
  | item :: chain =>
      List.replicate indent Byte.space ++ ascii "line item [" ++ item.path.toBytes ++ ascii "] +"
        ++ inQuotes item.key ++ [Byte.lineFeed]
        ++ dumpRules (indent + 2) (ascii "pre") item.pre
        ++ dumpRules (indent + 2) (ascii "post") item.post
        ++ dumpChain (indent + 2) chain

namespace Program

/-- All rules: those at the root, those of the line items from the outside in, and the tail. -/
def rules (program : Program) : List Rule :=
  program.root ++ program.chain.flatMap LineItem.rules ++ program.tail

def columnCount (program : Program) : Nat :=
  program.rules.length

/-- Number of line items, each inside the one before. Without any there is a single row. -/
def depth (program : Program) : Nat :=
  program.chain.length

def dump (program : Program) : Bytes :=
  dumpRules 0 (ascii "root") program.root ++ dumpChain 0 program.chain
    ++ dumpRules 0 (ascii "tail") program.tail

end Program

end JsonTable
