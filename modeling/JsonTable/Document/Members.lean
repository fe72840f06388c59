import JsonTable.Document.Basic

/-!
# Members of objects

An object is built from its members in any order. They are brought into the
order of their keys, and a key that stands twice is refused.
-/

namespace JsonTable.Document

def ofMembers (members : Keyed Document) : Except Misuse Document :=
  let sorted := members.sort
  match sorted.repeatedKey? with
  | some key => .error (.repeatedMember key)
  | none => .ok (.object sorted)

mutual

/-- The members of every object within the value stand by ascending key. -/
def Canonical : Document → Prop
  | .array items => CanonicalItems items
  | .object members => Keyed.Ascending members ∧ CanonicalMembers members
  | _ => True

def CanonicalItems : List Document → Prop
  | [] => True
  | item :: items => Canonical item ∧ CanonicalItems items

def CanonicalMembers : List (Bytes × Document) → Prop
  | [] => True
  | (_, value) :: members => Canonical value ∧ CanonicalMembers members

end

theorem search?_eq_lookup {d : Document} (h : d.Canonical) (key : Bytes) : d.search? key = d.lookup key := by
  cases d with
  | object members => exact Keyed.search?_eq_lookup h.1 key
  | _ => rfl

end JsonTable.Document
