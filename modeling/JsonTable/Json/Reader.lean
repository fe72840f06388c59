import JsonTable.Document.Members
import JsonTable.Json.Literal
import JsonTable.Json.Number

/-!
# Reading JSON from the front of a text

`readValue` reads one value from the bytes that are left and gives back what
follows it. It recurses on how many levels of nesting are still allowed, so
that it is total and the limit needs no counter. Arrays and objects share one
loop, `readItems`, which is told how to read an item.
-/

namespace JsonTable

namespace Json

def isSpace (b : UInt8) : Bool :=
  b == Byte.space || b == Byte.tab || b == Byte.lineFeed || b == Byte.carriageReturn

def skipSpaces (text : Bytes) : Bytes :=
  text.dropWhile isSpace

/-- Values may be nested this many levels below the top one. -/
def maxDepth : Nat :=
  512

/-- How a sequence of items ends, and what is wrong with one that does not. -/
structure Enclosure where
  close : UInt8
  unterminated : Cause
  expectedEnd : Cause

def Enclosure.array : Enclosure :=
  ⟨Byte.closeBracket, .unterminatedArray, .expectedItemEnd⟩

def Enclosure.object : Enclosure :=
  ⟨Byte.closeBrace, .unterminatedObject, .expectedMemberEnd⟩

/--
The rest of a sequence from the beginning of an item on, after the items `done`,
which are kept backwards. `opened` begins at the opening byte. Every item takes
at least one byte, so as many rounds as there are bytes, and one more, are enough.
-/
def readItems {α : Type} (enclosure : Enclosure) (opened : Bytes)
    (readItem : List α → Bytes → Reading (α × Bytes)) :
    (rounds : Nat) → (done : List α) → Bytes → Reading (List α × Bytes)
  | 0, _, _ => .error (faultToEnd opened enclosure.unterminated)
  | rounds + 1, done, text => do
      let (item, rest) ← readItem done text
      match skipSpaces rest with
      | [] => throw (faultToEnd opened enclosure.unterminated)
      | b :: rest =>
          if b = enclosure.close then return ((item :: done).reverse, rest)
          else if b = Byte.comma then
            readItems enclosure opened readItem rounds (item :: done) rest
          else throw (faultAt (b :: rest) 1 enclosure.expectedEnd)

/-- A sequence after its opening byte: nothing before the closing byte, or items. -/
def readSequence {α : Type} (enclosure : Enclosure) (opened : Bytes)
    (readItem : List α → Bytes → Reading (α × Bytes)) (body : Bytes) : Reading (List α × Bytes) :=
  match Bytes.after? [enclosure.close] (skipSpaces body) with
  | some rest => .ok ([], rest)
  | none => readItems enclosure opened readItem (body.length + 1) [] body

/-- A member of an object: a key that none of the members so far has, a colon and a value. -/
def readMember (readNested : Bytes → Reading (Document × Bytes)) (opened : Bytes)
    (members : Keyed Document) (text : Bytes) : Reading ((Bytes × Document) × Bytes) :=
  match skipSpaces text with
  | [] => .error (faultToEnd opened .unterminatedObject)
  | b :: body =>
      if b ≠ Byte.quote then .error (faultAt (b :: body) 1 .expectedKey)
      else do
        let (key, rest) ← readLiteral body
        if members.any fun member => member.1 == key then
          throw (faultAt (b :: body) (body.length + 1 - rest.length) (.repeatedKey key))
        let rest := skipSpaces rest
        match Bytes.after? [Byte.colon] rest with
        | none => throw (faultAt rest 1 .expectedColon)
        | some rest =>
            let (value, rest) ← readNested rest
            return ((key, value), rest)

def valueWords : List (Bytes × Document) :=
  [(Bytes.ascii "true", .bool true), (Bytes.ascii "false", .bool false),
    (Bytes.ascii "null", .null)]

def readWord (text : Bytes) : Reading (Document × Bytes) :=
  match valueWords.findSome? fun (word, value) => (Bytes.after? word text).map (value, ·) with
  | some reading => .ok reading
  | none => .error (faultAt text 1 (.unexpectedByte (text.headD 0)))

/-- A value of which `b` is the first byte, given how to read the values within it. -/
def readBegun (readNested : Bytes → Reading (Document × Bytes)) (b : UInt8) (rest : Bytes) :
    Reading (Document × Bytes) :=
  if b = Byte.openBrace then do
    let (members, rest) ←
      readSequence .object (b :: rest) (readMember readNested (b :: rest)) rest
    match Document.ofMembers members with
    | .ok value => return (value, rest)
    | .error misuse => throw (.misuse misuse)
  else if b = Byte.openBracket then do
    let (items, rest) ← readSequence .array (b :: rest) (fun _ => readNested) rest
    return (.array items, rest)
  else if b = Byte.quote then do
    let (text, rest) ← readLiteral rest
    return (.string text, rest)
  else if b = Byte.minus ∨ Byte.isDigit b then do
    let (text, rest) ← readNumber (b :: rest)
    return (.number text, rest)
  else readWord (b :: rest)

/-- The value a text begins with, if it has at most `levels` levels, its own included. -/
def readValue : (levels : Nat) → Bytes → Reading (Document × Bytes)
  | 0, text =>
      match skipSpaces text with
      | [] => .error (faultAt [] 1 .expectedValue)
      | b :: rest => .error (faultAt (b :: rest) 1 (.tooDeep maxDepth))
  | levels + 1, text =>
      match skipSpaces text with
      | [] => .error (faultAt [] 1 .expectedValue)
      | b :: rest => readBegun (readValue levels) b rest

/-- The value a text begins with, and the text from the first byte after it that is not blank. -/
def readSpaced (text : Bytes) : Reading (Document × Bytes) := do
  let (value, rest) ← readValue (maxDepth + 1) text
  return (value, skipSpaces rest)

def readWhole (text : Bytes) : Reading Document := do
  let (value, rest) ← readSpaced text
  if rest.isEmpty then return value
  else throw (faultAt rest 1 .trailingBytes)

end Json

end JsonTable
