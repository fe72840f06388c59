import JsonTable.Document.Basic

/-!
# Paths

A path is a list of steps from an object to an object. A step goes to a member
that is an object, or into a member that is an array, to its first item whose
member `matchKey` is the string `matchValue`. Either way it lands on an object,
so steps can always be chained. Items after the match are not looked at; an
item before it that is no object stops the step.

`Path.descend` tells where a path leads, or which of its steps first failed and
why.
-/

namespace JsonTable

open Bytes

inductive Step where
  | member (key : Bytes)
  | element (key matchKey matchValue : Bytes)
deriving Repr, DecidableEq

inductive Obstacle where
  | notAnObject (found : Kind)
  | missing
  | memberNotAnObject
  | memberNotAnArray
  | itemNotAnObject
  | noMatch (matchKey matchValue : Bytes)
deriving Repr, DecidableEq

def Obstacle.clause : Obstacle → Bytes
  | .notAnObject found => ascii " was looked up in a " ++ found.name
  | .missing => ascii " is not contained"
  | .memberNotAnObject => ascii " does not point to a map"
  | .memberNotAnArray => ascii " is not a list"
  | .itemNotAnObject => ascii " is not a list of only maps"
  | .noMatch matchKey matchValue =>
      ascii " did not contain a map where " ++ inQuotes matchKey ++ ascii " = "
        ++ inQuotes matchValue

namespace Step

def key : Step → Bytes
  | .member key => key
  | .element key _ _ => key

/-- How messages name a step. -/
def label : Step → Bytes
  | .member key => ascii "map key=" ++ inQuotes key
  | .element key _ _ => ascii "list_map key=" ++ inQuotes key

def toBytes : Step → Bytes
  | .member key => Byte.dot :: inQuotes key ++ [Byte.openBracket]
  | .element key matchKey matchValue =>
      Byte.slash :: inQuotes key ++ Byte.openBracket :: inQuotes matchKey
        ++ Byte.equals :: inQuotes matchValue

/-- The first object whose member `matchKey` is the string `matchValue`, after objects only. -/
def findItem (matchKey matchValue : Bytes) : List Document → Except Obstacle Document
  | [] => .error (.noMatch matchKey matchValue)
  | item :: items =>
      if item.kind ≠ .object then .error .itemNotAnObject
      else if item.lookup matchKey = some (.string matchValue) then .ok item
      else findItem matchKey matchValue items

def walk (step : Step) (d : Document) : Except Obstacle Document :=
  if d.kind ≠ .object then .error (.notAnObject d.kind)
  else
    match d.lookup step.key with
    | none => .error .missing
    | some next =>
        match step, next with
        | .member _, .object members => .ok (.object members)
        | .member _, _ => .error .memberNotAnObject
        | .element _ matchKey matchValue, .array items => findItem matchKey matchValue items
        | .element _ _ _, _ => .error .memberNotAnArray

def failureMessage (step : Step) (obstacle : Obstacle) : Bytes :=
  step.label ++ obstacle.clause

end Step

abbrev Path := List Step

/-- Where a path ends early: the steps taken, the one that failed, and why it did. -/
structure Blocked where
  walked : Path
  step : Step
  obstacle : Obstacle
deriving Repr, DecidableEq

namespace Path

def toBytes (path : Path) : Bytes :=
  [Byte.space].intercalate (path.map Step.toBytes)

/-- What messages say of the steps taken before something was found missing. -/
def afterwards (path : Path) : Bytes :=
  ascii " after descending through: [" ++ path.toBytes ++ ascii "]"

def descend : Path → Document → Except Blocked Document
  | [], d => .ok d
  | step :: path, d =>
      match step.walk d with
      | .error obstacle => .error ⟨[], step, obstacle⟩
      | .ok next =>
          match descend path next with
          | .error blocked => .error { blocked with walked := step :: blocked.walked }
          | .ok landing => .ok landing

end Path

def Blocked.message (blocked : Blocked) : Bytes :=
  blocked.step.failureMessage blocked.obstacle ++ Path.afterwards blocked.walked

end JsonTable
