import JsonTable.Fault

/-!
# What can be wrong with a format
-/

namespace JsonTable.Format

open Bytes

inductive KeyRole where
  | memberKey
  | arrayKey
  | matchKey
  | matchValue
  | lineItemKey
  | printedKey
deriving Repr, DecidableEq

def KeyRole.phrase : KeyRole → Bytes
  | .memberKey => ascii "'.' (map access)"
  | .arrayKey => ascii "'/' (list-of-maps access)"
  | .matchKey => ascii "'[' in list-of-maps access"
  | .matchValue => ascii "'=' in list-of-maps access"
  | .lineItemKey => ascii "'+' (line item)"
  | .printedKey => ascii "printed key"

inductive Opening where
  | member
  | array
  | lineItem
deriving Repr, DecidableEq

def Opening.phrase : Opening → Bytes
  | .member => ascii "descend into map"
  | .array => ascii "descend into list-of-maps"
  | .lineItem => ascii "defining line item"

/-- What is wrong with a format. The bytes from the fault on are given as `text`. -/
inductive Cause where
  | endBeforeKey (role : KeyRole)
  | expectedKey (role : KeyRole) (text : Bytes)
  | unterminatedKey (text : Bytes)
  | emptyKey
  | endBeforeOpen (opening : Opening) (key : Bytes)
  | expectedOpen (opening : Opening) (key : Bytes) (found : UInt8)
  | expectedEquals (key : Bytes)
  | secondLineItem (key : Bytes)
  | nothingToClose
  | unknownByte (byte : UInt8) (text : Bytes)
  | openLevels (count : Nat) (key : Bytes) (withinLineItem : Bool)
  | openLineItems (keys : List Bytes)
deriving Repr, DecidableEq

def excerptLimit : Nat :=
  20

def closeAdvice : Bytes :=
  ascii "Please close (with \"]\") all items opened. Each \"[\" needs a matching close \"]\"."

def Cause.message : Cause → Bytes
  | .endBeforeKey role =>
      ascii "Missing expected quote character after " ++ role.phrase
        ++ ascii ". Reached the end of the format string"
  | .expectedKey role text =>
      ascii "Missing expected quote character after " ++ role.phrase ++ ascii " at: "
        ++ excerpt excerptLimit text
  | .unterminatedKey text =>
      ascii "Can't find end of quoted key name (missing end-quote?) at: "
        ++ excerpt excerptLimit text
  | .emptyKey => ascii "Key names cannot be empty"
  | .endBeforeOpen opening key =>
      ascii "Unexpected end after " ++ opening.phrase ++ ascii ": " ++ inQuotes key
  | .expectedOpen opening key found =>
      ascii "Expected square bracket, \"[\" , after " ++ opening.phrase ++ ascii ": "
        ++ inQuotes key ++ ascii ". Got: " ++ [found]
  | .expectedEquals key =>
      ascii "Expected = for \"key\"=\"value\" following descend into list-of-maps "
        ++ inQuotes key
  | .secondLineItem key =>
      ascii "Tried to start a new line item, " ++ inQuotes key
        ++ ascii ", outside of an already closed line item"
  | .nothingToClose => ascii "Found closing square bracket, \"]\" , but no open items"
  | .unknownByte byte text =>
      ascii "Unhandled character '" ++ [byte] ++ ascii "' at: " ++ excerpt excerptLimit text
  | .openLevels count key withinLineItem =>
      ascii "Finished parsing format string, but there are still " ++ decimal count
        ++ ascii " open items on the current level (" ++ inQuotes key
        ++ ascii " is closest key that is still open)"
        ++ (if withinLineItem then ascii ", and one or more open line items" else [])
        ++ ascii ". " ++ closeAdvice
  | .openLineItems keys =>
      ascii "Finished parsing format string, but the following line items are still open: "
        ++ (ascii ", ").intercalate keys ++ ascii ". " ++ closeAdvice

/-- What a reader gives: a result, mostly a value and the bytes after it, or why there is none. -/
abbrev Reading := Except (Failure Cause)

end JsonTable.Format
