import JsonTable.Format.Cause
import JsonTable.Path

/-!
# Operations of a format

A format is a sequence of operations: descend by a step, open a line item,
print a key, close what was opened last. Keys stand between double quotes; they
are not empty and hold any bytes but a double quote, since there are no escapes.
Blanks, commas and comments may stand between all tokens.
-/

namespace JsonTable.Format

inductive Operation where
  | descend (step : Step)
  | openItem (key : Bytes)
  | print (key : Bytes)
  | close
deriving Repr, DecidableEq

def isBlank (b : UInt8) : Bool :=
  b == Byte.space || b == Byte.tab || b == Byte.carriageReturn || b == Byte.lineFeed
    || b == Byte.comma

/-- Skips blanks and comments, from within a comment or from outside of one. -/
def skipBlanksFrom : (inComment : Bool) → Bytes → Bytes
  | _, [] => []
  | true, b :: rest => skipBlanksFrom (b != Byte.lineFeed) rest
  | false, b :: rest =>
      if isBlank b then skipBlanksFrom false rest
      else if b = Byte.hash then skipBlanksFrom true rest
      else b :: rest

/-- A format from its next token on. A comment runs from a hash sign to the end of the line. -/
def skipBlanks (text : Bytes) : Bytes :=
  skipBlanksFrom false text

def readKey (role : KeyRole) (text : Bytes) : Reading (Bytes × Bytes) :=
  match skipBlanks text with
  | [] => .error (faultAt [] 1 (.endBeforeKey role))
  | b :: rest =>
      if b ≠ Byte.quote then .error (faultAt (b :: rest) 1 (.expectedKey role (b :: rest)))
      else
        match rest.dropWhile (· != Byte.quote) with
        | [] => .error (faultToEnd (b :: rest) (.unterminatedKey (b :: rest)))
        | _ :: after =>
            let key := rest.takeWhile (· != Byte.quote)
            if key.isEmpty then .error (faultAt (b :: rest) 2 .emptyKey)
            else .ok (key, after)

/-- What follows the opening bracket that comes next. -/
def readOpen (opening : Opening) (key text : Bytes) : Reading Bytes :=
  match skipBlanks text with
  | [] => .error (faultAt [] 1 (.endBeforeOpen opening key))
  | b :: rest =>
      if b = Byte.openBracket then .ok rest
      else .error (faultAt (b :: rest) 1 (.expectedOpen opening key b))

/-- The step into an object that follows a dot. -/
def readMemberStep (text : Bytes) : Reading (Operation × Bytes) := do
  let (key, rest) ← readKey .memberKey text
  let rest ← readOpen .member key rest
  return (.descend (.member key), rest)

/-- The step into an item of an array that follows a slash. -/
def readElementStep (text : Bytes) : Reading (Operation × Bytes) := do
  let (key, rest) ← readKey .arrayKey text
  let rest ← readOpen .array key rest
  let (matchKey, rest) ← readKey .matchKey rest
  let rest := skipBlanks rest
  match Bytes.after? [Byte.equals] rest with
  | none => throw (faultAt rest 1 (.expectedEquals key))
  | some rest =>
      let (matchValue, rest) ← readKey .matchValue rest
      let rest := skipBlanks rest
      let rest := (Bytes.after? [Byte.openBracket] rest).getD rest
      return (.descend (.element key matchKey matchValue), rest)

/--
The line item whose plus sign `text` begins with. None may be opened once one
was closed, which is noticed as soon as its key is known.
-/
def readLineItem (anyClosed : Bool) (text : Bytes) : Reading (Operation × Bytes) := do
  let (key, rest) ← readKey .lineItemKey text.tail
  if anyClosed then
    throw (faultAt text (text.length - rest.length) (.secondLineItem key))
  let rest ← readOpen .lineItem key rest
  return (.openItem key, rest)

/-- The operation that begins with the first byte, which is not blank. -/
def readOperation (anyClosed : Bool) (first : UInt8) (rest : Bytes) :
    Reading (Operation × Bytes) :=
  if first = Byte.dot then readMemberStep rest
  else if first = Byte.slash then readElementStep rest
  else if first = Byte.plus then readLineItem anyClosed (first :: rest)
  else if first = Byte.closeBracket then .ok (.close, rest)
  else if first = Byte.quote then do
    let (key, rest) ← readKey .printedKey (first :: rest)
    return (.print key, rest)
  else .error (faultAt (first :: rest) 1 (.unknownByte first (first :: rest)))

end JsonTable.Format
