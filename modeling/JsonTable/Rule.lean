import JsonTable.Document.Printer
import JsonTable.Path

/-!
# Rules

A rule fills a cell: from a context it follows a path and shows the member of a
key there. `Rule.value` gives that member, or the gap that takes its place; null
is told from the values with a text before any text is asked for, so that
`Rule.cell` has one for all others. What a gap is filled with, and whether it is
noted, is a matter of `Options`.
-/

namespace JsonTable

open Bytes

/-- What a table shows for a gap, and whether gaps are noted. -/
structure Options where
  nullText : Bytes := []
  debug : Bool := false
deriving Repr, DecidableEq

namespace Document

/-- Whether a cell can show the value. -/
def HasText (d : Document) : Prop :=
  d.kind ≠ .null ∧ d.kind ≠ .invalid

instance (d : Document) : Decidable d.HasText :=
  inferInstanceAs (Decidable (_ ∧ _))

/-- A value as a cell shows it: strings and numbers as they are, arrays and objects as JSON. -/
def text : (d : Document) → d.HasText → Bytes
  | .string text, _ => text
  | .number text, _ => text
  | .bool value, _ => ascii (if value then "true" else "false")
  | .array items, _ => (Document.array items).compact
  | .object members, _ => (Document.object members).compact
  | .null, h => absurd rfl h.1
  | .invalid, h => absurd rfl h.2

def cellText (d : Document) : Except Misuse Bytes :=
  if h : d.HasText then .ok (d.text h) else .error (.noCellText d.kind.name)

theorem cellText_of_hasText {d : Document} (h : d.HasText) : d.cellText = .ok (d.text h) :=
  dif_pos h

end Document

/-- A printed member: a path from the context, and the member's key. -/
structure Rule where
  path : Path
  key : Bytes
deriving Repr, DecidableEq

inductive Gap where
  | blocked (reason : Blocked)
  | missing (rule : Rule)
  | null (rule : Rule)
deriving Repr, DecidableEq

def Gap.message : Gap → Bytes
  | .blocked reason => ascii "Returning null because " ++ reason.message
  | .missing rule =>
      ascii "Returning null because no key " ++ inQuotes rule.key ++ ascii " exists"
        ++ rule.path.afterwards
  | .null rule =>
      ascii "Returning null because keyname " ++ inQuotes rule.key ++ ascii " has value "
        ++ inQuotes (ascii "null") ++ rule.path.afterwards

namespace Rule

/-- The value that a rule shows in a context. Null leaves a gap, as what is missing does. -/
def value (rule : Rule) (context : Document) : Except Gap { d : Document // d.HasText } :=
  match rule.path.descend context with
  | .error reason => .error (.blocked reason)
  | .ok landing =>
      match landing.lookup rule.key with
      | none => .error (.missing rule)
      | some value => if h : value.HasText then .ok ⟨value, h⟩ else .error (.null rule)

def cell (rule : Rule) (context : Document) : Except Gap Bytes :=
  (rule.value context).map fun value => value.1.text value.2

end Rule

end JsonTable
