import JsonTable.Json.Cause

/-!
# Numbers

A number is an optional minus sign, a zero or digits that do not begin with
one, and optionally a fraction and an exponent, each with at least one digit.
Its value is never computed: what is read is the text itself.
-/

namespace JsonTable.Json

/-- A sign of the given kinds, if the text begins with one, and what follows. -/
def splitSign (isSign : UInt8 → Bool) : Bytes → Bytes × Bytes
  | [] => ([], [])
  | b :: rest => if isSign b then ([b], rest) else ([], b :: rest)

/-- Sign and whole part of the number that `number` begins with. -/
def readInteger (number : Bytes) : Reading (Bytes × Bytes) :=
  let (sign, rest) := splitSign (· == Byte.minus) number
  match rest with
  | b :: after =>
      if b = Byte.zero then .ok (sign ++ [b], after)
      else if Byte.isDigit b then
        .ok (sign ++ rest.takeWhile Byte.isDigit, rest.dropWhile Byte.isDigit)
      else .error (faultAt number (sign.length + 1) .badNumber)
  | [] => .error (faultAt number (sign.length + 1) .badNumber)

/-- The text `taken` continued by a fraction, if one follows. -/
def readFraction (number taken : Bytes) : Bytes → Reading (Bytes × Bytes)
  | [] => .ok (taken, [])
  | b :: rest =>
      if b = Byte.dot then
        let digits := rest.takeWhile Byte.isDigit
        if digits.isEmpty then .error (faultAt number (taken.length + 1) .missingFraction)
        else .ok (taken ++ b :: digits, rest.dropWhile Byte.isDigit)
      else .ok (taken, b :: rest)

def readExponent (number taken : Bytes) : Bytes → Reading (Bytes × Bytes)
  | [] => .ok (taken, [])
  | b :: rest =>
      if b = 0x65 ∨ b = 0x45 then
        let (sign, rest) := splitSign (fun c => c == Byte.plus || c == Byte.minus) rest
        let digits := rest.takeWhile Byte.isDigit
        if digits.isEmpty then
          .error (faultAt number (taken.length + 1 + sign.length) .missingExponent)
        else .ok (taken ++ b :: (sign ++ digits), rest.dropWhile Byte.isDigit)
      else .ok (taken, b :: rest)

/-- The text of the number that `number` begins with. A digit must not follow it. -/
def readNumber (number : Bytes) : Reading (Bytes × Bytes) := do
  let (whole, rest) ← readInteger number
  let (decimal, rest) ← readFraction number whole rest
  let (taken, rest) ← readExponent number decimal rest
  if rest.head?.any Byte.isDigit then
    throw (faultAt number (taken.length + 1) .leadingZero)
  else return (taken, rest)

end JsonTable.Json
