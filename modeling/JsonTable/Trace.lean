import JsonTable.Program

/-!
# Traces

With debugging on, everything that a document lacks is noted while rows are
made from it: each gap left by a rule and each array that a line item did not
find. `Traced` keeps the notes, in order, beside the result.
-/

namespace JsonTable

open Bytes

/-- What a line item found instead of its array. -/
inductive NoArray where
  | blocked (key : Bytes) (reason : Blocked)
  | missing (key : Bytes) (path : Path)
  | notAnArray (key : Bytes) (found : Kind)
deriving Repr, DecidableEq

def NoArray.message : NoArray → Bytes
  | .blocked key reason =>
      ascii "Line item " ++ inQuotes key ++ ascii " produced no rows because " ++ reason.message
  | .missing key path =>
      ascii "Line item " ++ inQuotes key
        ++ ascii " produced no rows because the key does not exist" ++ path.afterwards
  | .notAnArray key found =>
      ascii "Line item " ++ inQuotes key ++ ascii " produced no rows because it holds a "
        ++ found.name ++ ascii ", not an array"

inductive Note where
  | gap (reason : Gap)
  | noArray (reason : NoArray)
deriving Repr, DecidableEq

def Note.message : Note → Bytes
  | .gap reason => reason.message
  | .noArray reason => reason.message

/-- A result, and the notes taken on the way to it. -/
@[ext]
structure Traced (α : Type) where
  value : α
  notes : List Note
deriving Repr, DecidableEq

namespace Traced

instance : Monad Traced where
  pure value := ⟨value, []⟩
  bind traced next :=
    let following := next traced.value
    ⟨following.value, traced.notes ++ following.notes⟩

def note (options : Options) (remark : Note) : Traced Unit :=
  ⟨(), if options.debug then [remark] else []⟩

@[simp]
theorem value_pure {α : Type} (a : α) : (pure a : Traced α).value = a :=
  rfl

@[simp]
theorem notes_pure {α : Type} (a : α) : (pure a : Traced α).notes = [] :=
  rfl

@[simp]
theorem value_bind {α β : Type} (traced : Traced α) (next : α → Traced β) :
    (traced >>= next).value = (next traced.value).value :=
  rfl

@[simp]
theorem notes_bind {α β : Type} (traced : Traced α) (next : α → Traced β) :
    (traced >>= next).notes = traced.notes ++ (next traced.value).notes :=
  rfl

instance : LawfulMonad Traced :=
  LawfulMonad.mk' Traced
    (fun _ => Traced.ext rfl (List.append_nil _))
    (fun _ _ => Traced.ext rfl (List.nil_append _))
    (fun _ _ _ => Traced.ext rfl (List.append_assoc _ _ _))

@[simp]
theorem value_map {α β : Type} (f : α → β) (traced : Traced α) :
    (f <$> traced).value = f traced.value :=
  rfl

@[simp]
theorem notes_map {α β : Type} (f : α → β) (traced : Traced α) :
    (f <$> traced).notes = traced.notes :=
  List.append_nil _

@[simp]
theorem value_mapM {α β : Type} (f : α → Traced β) (items : List α) :
    (items.mapM f).value = items.map fun item => (f item).value := by
  induction items with
  | nil => rfl
  | cons item items ih => simp [ih]

/-- Items are visited in order, so their notes stand in order. -/
@[simp]
theorem notes_mapM {α β : Type} (f : α → Traced β) (items : List α) :
    (items.mapM f).notes = items.flatMap fun item => (f item).notes := by
  induction items with
  | nil => rfl
  | cons item items ih => simp [ih]

@[simp]
theorem value_note (options : Options) (remark : Note) : (note options remark).value = () :=
  rfl

@[simp]
theorem notes_note (options : Options) (remark : Note) :
    (note options remark).notes = if options.debug then [remark] else [] :=
  rfl

end Traced

def programName : Bytes :=
  ascii "jsonflat"

def logText (notes : List Note) : Bytes :=
  notes.flatMap fun note => programName ++ ascii ": " ++ note.message ++ [Byte.lineFeed]

end JsonTable
