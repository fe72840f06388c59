import JsonTable.Cursor
import JsonTable.Json.Reader

/-!
# Reading JSON by position

`Document.readAt` and `Document.read` go through the text of a report, where a
refused text leaves exactly one error; `Document.ofText` is for callers that want
the document or the first error and nothing else.

Each reader is the one of the same name on the bytes that are left.
-/

namespace JsonTable

open Bytes

namespace Json.Cursor

def skipSpaces (source : Source) (position : Nat) : Scan Nat :=
  source.skipWhile isSpace position

/-! ## Strings -/

def escapeLead : Bytes :=
  [Byte.backslash, pointLetter]

/-- The number written by the last `missing` of the four digits of an escape. -/
def readHexDigits (source : Source) (escape : Nat) : (missing value : Nat) → Scan Nat
  | 0, value => .ok value
  | missing + 1, value => do
      let position := escape + 5 - missing
      if position < source.size then
        match Byte.hexValue? (← source.byte position) with
        | none => throw (.error escape (position + 1) Cause.badHexDigit.message)
        | some digit => readHexDigits source escape missing (value * 16 + digit)
      else throw (.error escape position Cause.incompleteEscape.message)

def readEscape (source : Source) (position : Nat) : Scan (Nat × Nat) :=
  if source.hasAt position escapeLead then do
    let value ← readHexDigits source position 4 0
    return (value, position + 6)
  else throw (.error position (position + 1) (ascii "Was expecting a \\u escape here"))

/-- The code point of the escape at a position, or of two of them. -/
def readPoint (source : Source) (start : Nat) : Scan (Nat × Nat) := do
  let (high, position) ← readEscape source start
  if isLowSurrogate high then
    throw (.error start position Cause.unpairedLowSurrogate.message)
  else if isHighSurrogate high then
    if source.hasAt position escapeLead then
      let (low, position) ← readEscape source position
      if isLowSurrogate low then return (combineSurrogates high low, position)
      else throw (.error start position Cause.badLowSurrogate.message)
    else throw (.error start position Cause.unpairedHighSurrogate.message)
  else return (high, position)

/--
The rest of a literal that starts at the quote at `start`, after characters that
stand for `text`, which is kept backwards. Every character takes at least one byte.
-/
def readCharacters (source : Source) (start : Nat) :
    (rounds : Nat) → (text : Bytes) → (position : Nat) → Scan (Bytes × Nat)
  | 0, _, _ => throw (.error start source.size Cause.unterminatedString.message)
  | rounds + 1, text, position => do
      if position < source.size then
        let b ← source.byte position
        if b = Byte.quote then return (text.reverse, position + 1)
        else if b < 0x20 then
          throw (.error position (position + 1) Cause.controlByte.message)
        else if b ≠ Byte.backslash then
          readCharacters source start rounds (b :: text) (position + 1)
        else if position + 1 < source.size then
          let letter ← source.byte (position + 1)
          if letter = pointLetter then
            let (point, next) ← readPoint source position
            readCharacters source start rounds ((Utf8.encode point).reverse ++ text) next
          else
            match shortEscape? letter with
            | some c => readCharacters source start rounds (c :: text) (position + 2)
            | none => throw (.error position (position + 2) Cause.unknownEscape.message)
        else throw (.error start (position + 1) Cause.unterminatedString.message)
      else throw (.error start position Cause.unterminatedString.message)

def readLiteral (source : Source) (start : Nat) : Scan (Bytes × Nat) :=
  readCharacters source start (source.size - start) [] (start + 1)

/-! ## Numbers -/

/-- Where sign and whole part of the number at a position end. -/
def readInteger (source : Source) (start : Nat) : Scan Nat := do
  let whole := if ← source.holds (· == Byte.minus) start then start + 1 else start
  if ← source.holds Byte.isDigit whole then
    if (← source.byte whole) = Byte.zero then return whole + 1
    else source.skipWhile Byte.isDigit whole
  else throw (.error start (whole + 1) Cause.badNumber.message)

def readFraction (source : Source) (start position : Nat) : Scan Nat := do
  if ← source.holds (· == Byte.dot) position then
    let next ← source.skipWhile Byte.isDigit (position + 1)
    if next = position + 1 then throw (.error start next Cause.missingFraction.message)
    else return next
  else return position

def readExponent (source : Source) (start position : Nat) : Scan Nat := do
  if ← source.holds (fun b => b == 0x65 || b == 0x45) position then
    let signed ← source.holds (fun b => b == Byte.plus || b == Byte.minus) (position + 1)
    let digits := if signed then position + 2 else position + 1
    let next ← source.skipWhile Byte.isDigit digits
    if next = digits then throw (.error start next Cause.missingExponent.message)
    else return next
  else return position

def readNumber (source : Source) (start : Nat) : Scan (Bytes × Nat) := do
  let whole ← readInteger source start
  let decimal ← readFraction source start whole
  let next ← readExponent source start decimal
  if ← source.holds Byte.isDigit next then
    throw (.error start (next + 1) Cause.leadingZero.message)
  else return (← source.text start (next - start), next)

/-! ## Sequences -/

/-- The rest of a sequence from the beginning of an item on, after the items `done`. -/
def readItems {α : Type} (source : Source) (enclosure : Enclosure) (start : Nat)
    (readItem : List α → Nat → Scan (α × Nat)) :
    (rounds : Nat) → (done : List α) → (position : Nat) → Scan (List α × Nat)
  | 0, _, _ => throw (.error start source.size enclosure.unterminated.message)
  | rounds + 1, done, position => do
      let (item, next) ← readItem done position
      let next ← skipSpaces source next
      if next < source.size then
        let b ← source.byte next
        if b = enclosure.close then return ((item :: done).reverse, next + 1)
        else if b = Byte.comma then
          readItems source enclosure start readItem rounds (item :: done) (next + 1)
        else throw (.error next (next + 1) enclosure.expectedEnd.message)
      else throw (.error start next enclosure.unterminated.message)

/-- The items of the sequence whose opening byte is at a position. -/
def readSequence {α : Type} (source : Source) (enclosure : Enclosure) (start : Nat)
    (readItem : List α → Nat → Scan (α × Nat)) : Scan (List α × Nat) := do
  let position ← skipSpaces source (start + 1)
  if ← source.holds (· == enclosure.close) position then return ([], position + 1)
  else readItems source enclosure start readItem (source.size - start) [] position

def readMember (source : Source) (readNested : Nat → Scan (Document × Nat)) (start : Nat)
    (members : Keyed Document) (position : Nat) : Scan ((Bytes × Document) × Nat) := do
  let position ← skipSpaces source position
  if position < source.size then
    if (← source.byte position) = Byte.quote then
      let (key, next) ← readLiteral source position
      if members.any fun member => member.1 == key then
        throw (.error position next (Cause.repeatedKey key).message)
      let next ← skipSpaces source next
      if ← source.holds (· == Byte.colon) next then
        let (value, next) ← readNested (next + 1)
        return ((key, value), next)
      else throw (.error next (next + 1) Cause.expectedColon.message)
    else throw (.error position (position + 1) Cause.expectedKey.message)
  else throw (.error start position Cause.unterminatedObject.message)

/-! ## Values -/

def readWord (source : Source) (position : Nat) : Scan (Document × Nat) :=
  match valueWords.find? fun entry => source.hasAt position entry.1 with
  | some (word, value) => .ok (value, position + word.length)
  | none => do
      let b ← source.byte position
      throw (.error position (position + 1) (Cause.unexpectedByte b).message)

def readBegun (source : Source) (readNested : Nat → Scan (Document × Nat)) (b : UInt8)
    (position : Nat) : Scan (Document × Nat) :=
  if b = Byte.openBrace then do
    let (members, next) ←
      readSequence source .object position (readMember source readNested position)
    match Document.ofMembers members with
    | .ok value => return (value, next)
    | .error misuse => throw (.misuse misuse)
  else if b = Byte.openBracket then do
    let (items, next) ← readSequence source .array position fun _ => readNested
    return (.array items, next)
  else if b = Byte.quote then do
    let (text, next) ← readLiteral source position
    return (.string text, next)
  else if b = Byte.minus ∨ Byte.isDigit b then do
    let (text, next) ← readNumber source position
    return (.number text, next)
  else readWord source position

/-- The value from a position on, if it has at most `levels` levels, its own included. -/
def readValue (source : Source) : (levels position : Nat) → Scan (Document × Nat)
  | 0, position => do
      let position ← skipSpaces source position
      if position < source.size then
        throw (.error position (position + 1) (Cause.tooDeep maxDepth).message)
      else throw (.error position (position + 1) Cause.expectedValue.message)
  | levels + 1, position => do
      let position ← skipSpaces source position
      if position < source.size then
        readBegun source (readValue source levels) (← source.byte position) position
      else throw (.error position (position + 1) Cause.expectedValue.message)

/-- The value from a position on, and the position of the first byte after it that is not blank. -/
def readSpaced (source : Source) (position : Nat) : Scan (Document × Nat) := do
  let (value, next) ← readValue source (maxDepth + 1) position
  return (value, ← skipSpaces source next)

def readWhole (source : Source) (position : Nat) : Scan Document := do
  let (value, next) ← readSpaced source position
  if next < source.size then
    throw (.error next (next + 1) Cause.trailingBytes.message)
  else return value

end Json.Cursor

namespace Document

/--
Reads the value at a position of the report's text. With it comes the position
of the first byte after it that is not blank.
-/
def readAt (report : Report) (start : Nat) : Except Misuse (Option (Document × Nat) × Report) :=
  report.conclude (Json.Cursor.readSpaced report.source start)

/-- Reads the report's text as one document. A byte order mark may stand before it. -/
def read (report : Report) : Except Misuse (Option Document × Report) :=
  let start := if report.source.hasAt 0 Utf8.byteOrderMark then Utf8.byteOrderMark.length else 0
  report.conclude (Json.Cursor.readWhole report.source start)

def ofText (text : Bytes) : Except Refusal Document :=
  match read (.ofBytes text) with
  | .error misuse => .error (.misuse misuse)
  | .ok (document?, report) =>
      match report.firstError?, document? with
      | none, some document => .ok document
      | none, none => .error (.misuse .undiagnosedDocument)
      | some error, _ => .error (.rejected error)

end Document

end JsonTable
