import JsonTable.Document.Members
import JsonTable.Utf8

/-!
# The grammar of JSON

Which texts denote which documents, said without a reader: strings with their
escapes, numbers as they are written, and values, which nest through arrays and
objects. The keys of an object are compared as the bytes they stand for. How
deep values may be nested is not a matter of the grammar; `Located` says how
deep they are.
-/

namespace JsonTable.Json

open Bytes

/-! ## Strings -/

def shortEscapes : List (UInt8 × UInt8) :=
  [(Byte.quote, Byte.quote), (Byte.backslash, Byte.backslash), (Byte.slash, Byte.slash),
    (0x62, Byte.backspace), (0x66, Byte.formFeed), (0x6e, Byte.lineFeed),
    (0x72, Byte.carriageReturn), (0x74, Byte.tab)]

/-- A hexadecimal digit of either case, and its value. -/
def HexDigit (b : UInt8) (value : Nat) : Prop :=
  (ascii "0123456789abcdef")[value]? = some b ∨ (ascii "0123456789ABCDEF")[value]? = some b

/-- A backslash, a small u, four hexadecimal digits, and the number that these write. -/
inductive UnitEscape : Bytes → Nat → Prop where
  | digits {a b c d : UInt8} {i j k l : Nat} :
      HexDigit a i → HexDigit b j → HexDigit c k → HexDigit d l →
      UnitEscape [Byte.backslash, 0x75, a, b, c, d] (i * 0x1000 + j * 0x100 + k * 0x10 + l)

/-- An escape for a character. None is a surrogate; two surrogates are for one beyond U+FFFF. -/
inductive PointEscape : Bytes → Char → Prop where
  | unit {text : Bytes} {c : Char} : UnitEscape text c.toNat → PointEscape text c
  | pair {high low : Bytes} {i j : Nat} {c : Char} : i < 0x400 → j < 0x400 →
      UnitEscape high (0xd800 + i) → UnitEscape low (0xdc00 + j) →
      c.toNat = 0x10000 + i * 0x400 + j → PointEscape (high ++ low) c

inductive Character : Bytes → Bytes → Prop where
  | raw {b : UInt8} : 0x20 ≤ b → b ≠ Byte.quote → b ≠ Byte.backslash → Character [b] [b]
  | short {letter b : UInt8} : (letter, b) ∈ shortEscapes →
      Character [Byte.backslash, letter] [b]
  | point {text : Bytes} {c : Char} : PointEscape text c →
      Character text (String.utf8EncodeChar c)

inductive Characters : Bytes → Bytes → Prop where
  | nil : Characters [] []
  | cons {text more bytes moreBytes : Bytes} : Character text bytes →
      Characters more moreBytes → Characters (text ++ more) (bytes ++ moreBytes)

inductive Literal : Bytes → Bytes → Prop where
  | quoted {body text : Bytes} : Characters body text →
      Literal (Byte.quote :: body ++ [Byte.quote]) text

/-! ## Numbers -/

def Digits (text : Bytes) : Prop :=
  text ≠ [] ∧ ∀ b ∈ text, b ∈ ascii "0123456789"

inductive Whole : Bytes → Prop where
  | zero : Whole (ascii "0")
  | digits {b : UInt8} {rest : Bytes} : b ∈ ascii "123456789" →
      (∀ c ∈ rest, c ∈ ascii "0123456789") → Whole (b :: rest)

inductive Fraction : Bytes → Prop where
  | none : Fraction []
  | digits {digits : Bytes} : Digits digits → Fraction (Byte.dot :: digits)

inductive Exponent : Bytes → Prop where
  | none : Exponent []
  | digits {e : UInt8} {sign digits : Bytes} : e ∈ ascii "eE" →
      sign = [] ∨ sign = ascii "+" ∨ sign = ascii "-" → Digits digits →
      Exponent (e :: sign ++ digits)

inductive Number : Bytes → Prop where
  | parts {sign whole fraction exponent : Bytes} : sign = [] ∨ sign = ascii "-" →
      Whole whole → Fraction fraction → Exponent exponent →
      Number (sign ++ whole ++ fraction ++ exponent)

/-! ## Values -/

def Blank (text : Bytes) : Prop :=
  ∀ b ∈ text, b ∈ [Byte.space, Byte.tab, Byte.lineFeed, Byte.carriageReturn]

section Sequences

variable {α : Type}

/-- An item with any blanks around it. -/
inductive Padded (Item : Bytes → α → Prop) : Bytes → α → Prop where
  | around {before text after : Bytes} {x : α} : Blank before → Item text x → Blank after →
      Padded Item (before ++ text ++ after) x

/-- At least one item, with a comma between any two. -/
inductive Separated (Item : Bytes → α → Prop) : Bytes → List α → Prop where
  | last {text : Bytes} {x : α} : Padded Item text x → Separated Item text [x]
  | cons {text more : Bytes} {x : α} {xs : List α} : Padded Item text x →
      Separated Item more xs → Separated Item (text ++ Byte.comma :: more) (x :: xs)

inductive Enclosed (first last : UInt8) (Item : Bytes → α → Prop) : Bytes → List α → Prop where
  | empty {blanks : Bytes} : Blank blanks →
      Enclosed first last Item (first :: blanks ++ [last]) []
  | items {text : Bytes} {xs : List α} : Separated Item text xs →
      Enclosed first last Item (first :: text ++ [last]) xs

inductive Member (Item : Bytes → α → Prop) : Bytes → Bytes × α → Prop where
  | pair {literal key before after text : Bytes} {x : α} : Literal literal key →
      Blank before → Blank after → Item text x →
      Member Item (literal ++ before ++ Byte.colon :: after ++ text) (key, x)

end Sequences

/-- A value and its text. The keys of an object are different, and they ascend. -/
inductive Value : Bytes → Document → Prop where
  | trueWord : Value (ascii "true") (.bool true)
  | falseWord : Value (ascii "false") (.bool false)
  | nullWord : Value (ascii "null") .null
  | number {text : Bytes} : Number text → Value text (.number text)
  | string {literal text : Bytes} : Literal literal text → Value literal (.string text)
  | array {text : Bytes} {items : List Document} :
      Enclosed Byte.openBracket Byte.closeBracket Value text items → Value text (.array items)
  | object {text : Bytes} {written members : Keyed Document} :
      Enclosed Byte.openBrace Byte.closeBrace (Member Value) text written →
      (written.map Prod.fst).Nodup → members.Perm written → members.Ascending →
      Value text (.object members)

/-- `x` stands within the document, so many levels below the top. -/
inductive Located : Document → Nat → Document → Prop where
  | top {d : Document} : Located d 0 d
  | item {items : List Document} {item x : Document} {level : Nat} : item ∈ items →
      Located item level x → Located (.array items) (level + 1) x
  | member {members : Keyed Document} {key : Bytes} {value x : Document} {level : Nat} :
      (key, value) ∈ members → Located value level x → Located (.object members) (level + 1) x

/--
A text is one value with blanks around it, at most 512 levels deep, and it may
begin with a byte order mark.
-/
def Denotes (text : Bytes) (document : Document) : Prop :=
  ∃ mark body, text = mark ++ body ∧ (mark = [] ∨ mark = [0xef, 0xbb, 0xbf]) ∧
    Padded Value body document ∧ ∀ level x, Located document level x → level ≤ 512

end JsonTable.Json
