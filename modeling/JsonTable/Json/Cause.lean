import JsonTable.Fault

/-!
# What can be wrong with a JSON text
-/

namespace JsonTable.Json

open Bytes

inductive Cause where
  | expectedValue
  | tooDeep (limit : Nat)
  | unexpectedByte (byte : UInt8)
  | unterminatedArray
  | unterminatedObject
  | expectedItemEnd
  | expectedMemberEnd
  | expectedKey
  | expectedColon
  | repeatedKey (key : Bytes)
  | unterminatedString
  | controlByte
  | unknownEscape
  | incompleteEscape
  | badHexDigit
  | unpairedLowSurrogate
  | unpairedHighSurrogate
  | badLowSurrogate
  | badNumber
  | missingFraction
  | missingExponent
  | leadingZero
  | trailingBytes
deriving Repr, DecidableEq

def Cause.message : Cause → Bytes
  | .expectedValue => ascii "Was expecting a json value"
  | .tooDeep limit => ascii "Nesting deeper than " ++ decimal limit ++ ascii " levels"
  | .unexpectedByte byte => ascii "Unexpected character '" ++ [byte] ++ ascii "'"
  | .unterminatedArray => ascii "Unterminated array"
  | .unterminatedObject => ascii "Unterminated object"
  | .expectedItemEnd => ascii "Was expecting ',' or ']'"
  | .expectedMemberEnd => ascii "Was expecting ',' or '\x7d'"
  | .expectedKey => ascii "Was expecting a quoted key"
  | .expectedColon => ascii "Was expecting a colon after the key"
  | .repeatedKey key => ascii "Duplicate key " ++ inQuotes key
  | .unterminatedString => ascii "Unterminated string"
  | .controlByte => ascii "Unescaped control character in string"
  | .unknownEscape => ascii "Invalid escape sequence"
  | .incompleteEscape => ascii "Incomplete \\u escape"
  | .badHexDigit => ascii "Invalid hex digit in \\u escape"
  | .unpairedLowSurrogate => ascii "Unpaired low surrogate in \\u escape"
  | .unpairedHighSurrogate => ascii "Unpaired high surrogate in \\u escape"
  | .badLowSurrogate => ascii "Invalid low surrogate in \\u escape"
  | .badNumber => ascii "Invalid number"
  | .missingFraction => ascii "Missing digits after decimal point"
  | .missingExponent => ascii "Missing digits in exponent"
  | .leadingZero => ascii "Leading zeroes are not allowed in numbers"
  | .trailingBytes => ascii "Unexpected characters after the json value"

/-- What a reader gives: a result, mostly a value and the bytes after it, or why there is none. -/
abbrev Reading := Except (Failure Cause)

end JsonTable.Json
