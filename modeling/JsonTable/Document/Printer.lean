import JsonTable.Document.Basic

/-!
# Printing documents

A document is printed on one line without blanks, or spread over lines with two
more spaces of indentation for each level. Which of the two is said by a `Layout`,
whose indentation is any number.

`Document.prettyPrint` is given the indentation as a machine word. The greatest word
asks for one line, and the sums of indentations wrap; the library that pads lines
takes no width above the greatest `int`, and then there is no text.

Strings escape the double quote, the backslash and the bytes below 0x20;
everything else, UTF-8 or not, is copied.
-/

namespace JsonTable

open Bytes

/-- How a document is laid out: on one line, or over lines from an indentation on. -/
inductive Layout where
  | compact
  | indented (indent : Nat)
deriving Repr, DecidableEq

namespace Layout

def deeper : Layout → Layout
  | .compact => .compact
  | .indented indent => .indented (indent + 2)

/-- A new line at the current indentation, if the layout has lines. -/
def newline : Layout → Bytes
  | .compact => []
  | .indented indent => Byte.lineFeed :: List.replicate indent Byte.space

/-- What separates a key from its value. -/
def colon : Layout → Bytes
  | .compact => [Byte.colon]
  | .indented _ => [Byte.colon, Byte.space]

end Layout

def escapeByte (b : UInt8) : Bytes :=
  if b = Byte.quote then [Byte.backslash, Byte.quote]
  else if b = Byte.backslash then [Byte.backslash, Byte.backslash]
  else if b = Byte.lineFeed then ascii "\\n"
  else if b = Byte.carriageReturn then ascii "\\r"
  else if b = Byte.tab then ascii "\\t"
  else if b = Byte.backspace then ascii "\\b"
  else if b = Byte.formFeed then ascii "\\f"
  else if b < 0x20 then ascii "\\u00" ++ [Byte.hexDigit (b / 16), Byte.hexDigit (b % 16)]
  else [b]

def quoteString (text : Bytes) : Bytes :=
  Byte.quote :: text.flatMap escapeByte ++ [Byte.quote]

def appendString (buffer text : Bytes) : Bytes :=
  buffer ++ quoteString text

namespace Document

mutual

def print (layout : Layout) : Document → Bytes
  | .invalid => ascii "(error_value)"
  | .null => ascii "null"
  | .bool value => ascii (if value then "true" else "false")
  | .number text => text
  | .string text => quoteString text
  | .array items =>
      if items.isEmpty then [Byte.openBracket, Byte.closeBracket]
      else Byte.openBracket :: printItems layout.deeper items
        ++ layout.newline ++ [Byte.closeBracket]
  | .object members =>
      if members.isEmpty then [Byte.openBrace, Byte.closeBrace]
      else Byte.openBrace :: printMembers layout.deeper members
        ++ layout.newline ++ [Byte.closeBrace]

/-- Items, each on a line of its own if there are lines, with commas between. -/
def printItems (layout : Layout) : List Document → Bytes
  | [] => []
  | item :: items =>
      layout.newline ++ print layout item
        ++ if items.isEmpty then [] else Byte.comma :: printItems layout items

def printMembers (layout : Layout) : List (Bytes × Document) → Bytes
  | [] => []
  | (key, value) :: members =>
      layout.newline ++ quoteString key ++ layout.colon ++ print layout value
        ++ if members.isEmpty then [] else Byte.comma :: printMembers layout members

end

def compact (d : Document) : Bytes :=
  d.print .compact

/-- A document over lines. The first line is not indented, and no newline ends the last. -/
def pretty (indent : Nat) (d : Document) : Bytes :=
  d.print (.indented indent)

end Document

/-! ## Indentations that are machine words -/

inductive WidthError where
  | tooBig
deriving Repr, DecidableEq

namespace Indent

/-- The indentation that asks for one line. -/
def npos : UInt64 := 0xffffffffffffffff

/-- The greatest `int`, and so the greatest width. -/
def widest : Nat := 2147483647

def pad (width : UInt64) : Except WidthError Bytes :=
  if width.toNat ≤ widest then .ok (List.replicate width.toNat Byte.space) else .error .tooBig

/-- A new line of some width, in a text whose brackets stand at the indentation. -/
def newline (indent width : UInt64) : Except WidthError Bytes :=
  if indent = npos then .ok [] else (Byte.lineFeed :: ·) <$> pad width

def deeper (indent : UInt64) : UInt64 :=
  if indent = npos then npos else indent + 2

def colon (indent : UInt64) : Bytes :=
  if indent = npos then [Byte.colon] else [Byte.colon, Byte.space]

end Indent

namespace Document

mutual

/-- The text of a value whose brackets stand at the indentation. -/
def prettyPrint (indent : UInt64) : Document → Except WidthError Bytes
  | .invalid => .ok (ascii "(error_value)")
  | .null => .ok (ascii "null")
  | .bool value => .ok (ascii (if value then "true" else "false"))
  | .number text => .ok text
  | .string text => .ok (quoteString text)
  | .array items => do
      if items.isEmpty then return [Byte.openBracket, Byte.closeBracket]
      let body ← prettyPrintItems indent items
      let newline ← Indent.newline indent indent
      return Byte.openBracket :: body ++ newline ++ [Byte.closeBracket]
  | .object members => do
      if members.isEmpty then return [Byte.openBrace, Byte.closeBrace]
      let body ← prettyPrintMembers indent members
      let newline ← Indent.newline indent indent
      return Byte.openBrace :: body ++ newline ++ [Byte.closeBrace]

def prettyPrintItems (indent : UInt64) : List Document → Except WidthError Bytes
  | [] => .ok []
  | item :: items => do
      let newline ← Indent.newline indent (indent + 2)
      let text ← prettyPrint (Indent.deeper indent) item
      let more ← prettyPrintItems indent items
      return newline ++ text ++ if items.isEmpty then [] else Byte.comma :: more

def prettyPrintMembers (indent : UInt64) : List (Bytes × Document) → Except WidthError Bytes
  | [] => .ok []
  | (key, value) :: members => do
      let newline ← Indent.newline indent (indent + 2)
      let text ← prettyPrint (Indent.deeper indent) value
      let more ← prettyPrintMembers indent members
      return newline ++ quoteString key ++ Indent.colon indent ++ text
        ++ if members.isEmpty then [] else Byte.comma :: more

end

end Document

end JsonTable
