import JsonTable.Keyed
import JsonTable.Misuse

/-!
# Documents

A JSON document in memory. Numbers keep the text they were written with, since
a table cell shows them exactly so; strings and keys are byte strings with all
escapes undone. The members of an object are listed by ascending key, which
`Document.ofMembers` establishes; the type itself does not ask for it, and
`Document.Canonical` says where it holds.

`invalid` is not a JSON value. Reading a text never gives one; it marks a place
in a document built by hand where there is no value.
-/

namespace JsonTable

open Bytes

inductive Document where
  | invalid
  | null
  | bool (value : Bool)
  | number (text : Bytes)
  | string (text : Bytes)
  | array (items : List Document)
  | object (members : List (Bytes × Document))
deriving Repr, Inhabited

inductive Kind where
  | invalid
  | null
  | bool
  | number
  | string
  | array
  | object
deriving Repr, DecidableEq

def Kind.name : Kind → Bytes
  | .invalid => ascii "ErrorValue"
  | .null => ascii "Null"
  | .bool => ascii "Bool"
  | .number => ascii "Number"
  | .string => ascii "String"
  | .array => ascii "Vector"
  | .object => ascii "Map"

namespace Document

def kind : Document → Kind
  | .invalid => .invalid
  | .null => .null
  | .bool _ => .bool
  | .number _ => .number
  | .string _ => .string
  | .array _ => .array
  | .object _ => .object

/-- The value of an object's member. A value of another kind has no members. -/
def lookup (key : Bytes) : Document → Option Document
  | .object members => members.lookup key
  | _ => none

/-- The value of an object's member, found by halving the list of its members. -/
def search? (key : Bytes) : Document → Option Document
  | .object members => Keyed.search? members key
  | _ => none

mutual

/-- Equality of values: of one kind, with the same text, items or members, in order. -/
def beq : Document → Document → Bool
  | .invalid, .invalid => true
  | .null, .null => true
  | .bool a, .bool b => a == b
  | .number a, .number b => a == b
  | .string a, .string b => a == b
  | .array as, .array bs => beqItems as bs
  | .object as, .object bs => beqMembers as bs
  | _, _ => false

def beqItems : List Document → List Document → Bool
  | [], [] => true
  | a :: as, b :: bs => beq a b && beqItems as bs
  | _, _ => false

def beqMembers : List (Bytes × Document) → List (Bytes × Document) → Bool
  | [], [] => true
  | (j, a) :: as, (k, b) :: bs => j == k && beq a b && beqMembers as bs
  | _, _ => false

end

instance : BEq Document :=
  ⟨beq⟩

mutual

theorem beq_iff_eq : (a b : Document) → (beq a b = true ↔ a = b)
  | .array as, .array bs => by simp [beq, beqItems_iff_eq as bs]
  | .object as, .object bs => by simp [beq, beqMembers_iff_eq as bs]
  | .invalid, b => by cases b <;> simp [beq]
  | .null, b => by cases b <;> simp [beq]
  | .bool _, b => by cases b <;> simp [beq]
  | .number _, b => by cases b <;> simp [beq]
  | .string _, b => by cases b <;> simp [beq]
  | .array _, .invalid => by simp [beq]
  | .array _, .null => by simp [beq]
  | .array _, .bool _ => by simp [beq]
  | .array _, .number _ => by simp [beq]
  | .array _, .string _ => by simp [beq]
  | .array _, .object _ => by simp [beq]
  | .object _, .invalid => by simp [beq]
  | .object _, .null => by simp [beq]
  | .object _, .bool _ => by simp [beq]
  | .object _, .number _ => by simp [beq]
  | .object _, .string _ => by simp [beq]
  | .object _, .array _ => by simp [beq]

theorem beqItems_iff_eq : (as bs : List Document) → (beqItems as bs = true ↔ as = bs)
  | [], [] => by simp [beqItems]
  | [], _ :: _ => by simp [beqItems]
  | _ :: _, [] => by simp [beqItems]
  | a :: as, b :: bs => by simp [beqItems, beq_iff_eq a b, beqItems_iff_eq as bs]

theorem beqMembers_iff_eq :
    (as bs : List (Bytes × Document)) → (beqMembers as bs = true ↔ as = bs)
  | [], [] => by simp [beqMembers]
  | [], _ :: _ => by simp [beqMembers]
  | _ :: _, [] => by simp [beqMembers]
  | (_, a) :: as, (_, b) :: bs => by
      simp [beqMembers, beq_iff_eq a b, beqMembers_iff_eq as bs]

end

instance : LawfulBEq Document where
  eq_of_beq {a b} h := (beq_iff_eq a b).mp h
  rfl {a} := (beq_iff_eq a a).mpr rfl

instance : DecidableEq Document :=
  instDecidableEqOfLawfulBEq

@[simp]
theorem lookup_object (key : Bytes) (members : List (Bytes × Document)) :
    (Document.object members).lookup key = members.lookup key :=
  rfl

end Document

end JsonTable
