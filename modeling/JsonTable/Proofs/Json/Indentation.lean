import JsonTable.Proofs.Json.Printing

/-!
# Indentation

A document over lines is laid out alike at every indentation: only the number of spaces after
the newlines differs. For strings and keys are written without control bytes, so that all
newlines are those before items and members and before the brackets that close them.
-/

namespace JsonTable

open Bytes

def indentLines (indent : Nat) (text : Bytes) : Bytes :=
  text.flatMap fun b =>
    if b = Byte.lineFeed then Byte.lineFeed :: List.replicate indent Byte.space else [b]

section Lines

variable {b : UInt8} {text : Bytes}

theorem indentLines_append (indent : Nat) (text more : Bytes) :
    indentLines indent (text ++ more) = indentLines indent text ++ indentLines indent more :=
  List.flatMap_append

theorem indentLines_cons_lineFeed (indent : Nat) (text : Bytes) :
    indentLines indent (Byte.lineFeed :: text) =
      Byte.lineFeed :: List.replicate indent Byte.space ++ indentLines indent text := by
  rw [indentLines, List.flatMap_cons, if_pos rfl]
  rfl

theorem indentLines_cons_of_ne (hb : b ≠ Byte.lineFeed) (indent : Nat) (text : Bytes) :
    indentLines indent (b :: text) = b :: indentLines indent text := by
  rw [indentLines, List.flatMap_cons, if_neg hb]
  rfl

theorem indentLines_of_notMem (h : Byte.lineFeed ∉ text) (indent : Nat) :
    indentLines indent text = text := by
  induction text with
  | nil => rfl
  | cons b text ih =>
      rw [List.mem_cons, not_or] at h
      rw [indentLines_cons_of_ne (Ne.symm h.1), ih h.2]

theorem lineFeed_notMem_spaces (count : Nat) :
    Byte.lineFeed ∉ List.replicate count Byte.space :=
  fun hmem => absurd (List.eq_of_mem_replicate hmem) (by decide)

theorem indentLines_newline (indent more : Nat) :
    indentLines more (Layout.indented indent).newline =
      (Layout.indented (indent + more)).newline := by
  rw [Layout.newline, indentLines_cons_lineFeed,
    indentLines_of_notMem (lineFeed_notMem_spaces indent), List.cons_append,
    List.replicate_append_replicate, Nat.add_comm more, Layout.newline]

theorem count_newline (indent : Nat) :
    (Layout.indented indent).newline.count Byte.lineFeed = 1 := by
  rw [Layout.newline, List.count_cons_self, List.count_eq_zero.mpr (lineFeed_notMem_spaces indent)]

end Lines

namespace Json

/-! ## Strings -/

def NoControls (text : Bytes) : Prop :=
  ∀ b ∈ text, 0x20 ≤ b

instance (text : Bytes) : Decidable (NoControls text) :=
  List.decidableBAll (fun b => 0x20 ≤ b) text

theorem NoControls.lineFeed_notMem {text : Bytes} (h : NoControls text) :
    Byte.lineFeed ∉ text :=
  fun hmem => absurd (h _ hmem) (by decide)

theorem NoControls.append {text more : Bytes} (h : NoControls text) (hmore : NoControls more) :
    NoControls (text ++ more) :=
  List.forall_mem_append.mpr ⟨h, hmore⟩

theorem HexDigit.not_control {b : UInt8} {value : Nat} (h : HexDigit b value) : 0x20 ≤ b := by
  have hlower : NoControls (ascii "0123456789abcdef") := by decide
  have hupper : NoControls (ascii "0123456789ABCDEF") := by decide
  cases h with
  | inl h => exact hlower b (List.mem_of_getElem? h)
  | inr h => exact hupper b (List.mem_of_getElem? h)

theorem UnitEscape.noControls {text : Bytes} {unit : Nat} (h : UnitEscape text unit) :
    NoControls text := by
  cases h with
  | digits ha hb hc hd =>
      simp only [NoControls, List.forall_mem_cons]
      exact ⟨by decide, by decide, ha.not_control, hb.not_control, hc.not_control,
        hd.not_control, nofun⟩

theorem Character.noControls {text bytes : Bytes} (h : Character text bytes) :
    NoControls text := by
  cases h with
  | raw hb => exact List.forall_mem_singleton.mpr hb
  | short hshort =>
      have hletters : NoControls (shortEscapes.map Prod.fst) := by decide
      exact List.forall_mem_cons.mpr ⟨by decide,
        List.forall_mem_singleton.mpr (hletters _ (List.mem_map_of_mem hshort))⟩
  | point hpoint =>
      cases hpoint with
      | unit hunit => exact hunit.noControls
      | pair _ _ hhigh hlow _ => exact hhigh.noControls.append hlow.noControls

theorem Characters.noControls {text bytes : Bytes} (h : Characters text bytes) :
    NoControls text := by
  induction h with
  | nil => exact nofun
  | cons hcharacter _ ih => exact hcharacter.noControls.append ih

theorem Literal.noControls {literal text : Bytes} (h : Literal literal text) :
    NoControls literal := by
  have hquote : NoControls [Byte.quote] := by decide
  cases h with
  | quoted hbody => exact (hquote.append hbody.noControls).append hquote

theorem lineFeed_notMem_quoteString (text : Bytes) : Byte.lineFeed ∉ quoteString text :=
  (literal_quoteString text).noControls.lineFeed_notMem

/-! ## Documents over lines -/

/-- A document without a newline in the text of a number, where nothing would escape it. -/
def NumbersUnbroken (d : Document) : Prop :=
  ∀ level text, Located d level (.number text) → Byte.lineFeed ∉ text

theorem numbersUnbroken_array_iff {items : List Document} :
    NumbersUnbroken (.array items) ↔ ∀ item ∈ items, NumbersUnbroken item := by
  constructor
  · intro h item hitem level text hx
    exact h (level + 1) text (.item hitem hx)
  · intro h level text hx
    cases hx with
    | item hitem hx => exact h _ hitem _ text hx

theorem numbersUnbroken_object_iff {members : Keyed Document} :
    NumbersUnbroken (.object members) ↔ ∀ m ∈ members, NumbersUnbroken m.2 := by
  constructor
  · intro h m hm level text hx
    exact h (level + 1) text (.member hm hx)
  · intro h level text hx
    cases hx with
    | member hm hx => exact h _ hm _ text hx

theorem numbersUnbroken_number_iff {text : Bytes} :
    NumbersUnbroken (.number text) ↔ Byte.lineFeed ∉ text := by
  constructor
  · intro h
    exact h 0 text .top
  · intro h level other hx
    cases hx
    exact h

end Json

namespace Document

open Json

mutual

/-- The newlines of the layout: one before each item or member, and one before what closes them. -/
def lineBreaks : Document → Nat
  | .array items => if items.isEmpty then 0 else lineBreaksItems items + 1
  | .object members => if members.isEmpty then 0 else lineBreaksMembers members + 1
  | _ => 0

def lineBreaksItems : List Document → Nat
  | [] => 0
  | item :: items => 1 + lineBreaks item + lineBreaksItems items

def lineBreaksMembers : List (Bytes × Document) → Nat
  | [] => 0
  | (_, value) :: members => 1 + lineBreaks value + lineBreaksMembers members

end

theorem lineFeed_notMem_print {d : Document} (h : NumbersUnbroken d) (hbreaks : d.lineBreaks = 0)
    (layout : Layout) : Byte.lineFeed ∉ d.print layout := by
  cases d with
  | array items =>
      cases items with
      | nil => exact (by decide : Byte.lineFeed ∉ [Byte.openBracket, Byte.closeBracket])
      | cons item items => cases hbreaks
  | object members =>
      cases members with
      | nil => exact (by decide : Byte.lineFeed ∉ [Byte.openBrace, Byte.closeBrace])
      | cons m members => cases hbreaks
  | number text => exact numbersUnbroken_number_iff.mp h
  | string text => exact lineFeed_notMem_quoteString text
  | bool value =>
      rw [Document.print]
      cases value with
      | false => decide
      | true => decide
  | invalid =>
      rw [Document.print]
      decide
  | null =>
      rw [Document.print]
      decide

/-- What stands between two brackets, over lines, is indented with the bracket that closes. -/
theorem indentLines_bracketed {first last : UInt8} (hfirst : first ≠ Byte.lineFeed)
    (hlast : last ≠ Byte.lineFeed) (indent more : Nat) (body : Bytes) :
    indentLines more (first :: body ++ (Layout.indented indent).newline ++ [last]) =
      first :: indentLines more body ++ (Layout.indented (indent + more)).newline ++ [last] := by
  have hclose : Byte.lineFeed ∉ [last] := fun hmem => hlast (List.mem_singleton.mp hmem).symm
  rw [indentLines_append, indentLines_append, indentLines_cons_of_ne hfirst,
    indentLines_newline, indentLines_of_notMem hclose]

mutual

theorem print_indented_add (more : Nat) : (d : Document) → (indent : Nat) → NumbersUnbroken d →
    d.print (.indented (indent + more)) = indentLines more (d.print (.indented indent))
  | .invalid, _, h => (indentLines_of_notMem (lineFeed_notMem_print h rfl (.indented _)) more).symm
  | .null, _, h => (indentLines_of_notMem (lineFeed_notMem_print h rfl (.indented _)) more).symm
  | .bool _, _, h => (indentLines_of_notMem (lineFeed_notMem_print h rfl (.indented _)) more).symm
  | .number _, _, h => (indentLines_of_notMem (lineFeed_notMem_print h rfl (.indented _)) more).symm
  | .string _, _, h => (indentLines_of_notMem (lineFeed_notMem_print h rfl (.indented _)) more).symm
  | .array items, indent, h => by
      have hitems := printItems_indented_add more items (indent + 2)
        (numbersUnbroken_array_iff.mp h)
      rw [print, print]
      by_cases hempty : items.isEmpty = true
      · rw [if_pos hempty, if_pos hempty]
        exact (indentLines_of_notMem (by decide) more).symm
      · rw [if_neg hempty, if_neg hempty, indentLines_bracketed (by decide) (by decide),
          Layout.deeper, Layout.deeper, ← hitems, Nat.add_right_comm]
  | .object members, indent, h => by
      have hmembers := printMembers_indented_add more members (indent + 2)
        (numbersUnbroken_object_iff.mp h)
      rw [print, print]
      by_cases hempty : members.isEmpty = true
      · rw [if_pos hempty, if_pos hempty]
        exact (indentLines_of_notMem (by decide) more).symm
      · rw [if_neg hempty, if_neg hempty, indentLines_bracketed (by decide) (by decide),
          Layout.deeper, Layout.deeper, ← hmembers, Nat.add_right_comm]

theorem printItems_indented_add (more : Nat) : (items : List Document) → (indent : Nat) →
    (∀ item ∈ items, NumbersUnbroken item) →
    printItems (.indented (indent + more)) items =
      indentLines more (printItems (.indented indent) items)
  | [], _, _ => rfl
  | item :: items, indent, h => by
      obtain ⟨hitem, hitems⟩ := List.forall_mem_cons.mp h
      rw [printItems, printItems, indentLines_append, indentLines_append, indentLines_newline,
        ← print_indented_add more item indent hitem, apply_ite (indentLines more),
        indentLines_cons_of_ne (by decide), ← printItems_indented_add more items indent hitems]
      rfl

theorem printMembers_indented_add (more : Nat) : (members : List (Bytes × Document)) →
    (indent : Nat) → (∀ m ∈ members, NumbersUnbroken m.2) →
    printMembers (.indented (indent + more)) members =
      indentLines more (printMembers (.indented indent) members)
  | [], _, _ => rfl
  | (key, value) :: members, indent, h => by
      obtain ⟨hvalue, hmembers⟩ := List.forall_mem_cons.mp h
      have hcolon : Byte.lineFeed ∉ (Layout.indented indent).colon := by
        rw [Layout.colon]
        decide
      rw [printMembers, printMembers, indentLines_append, indentLines_append, indentLines_append,
        indentLines_append, indentLines_newline,
        indentLines_of_notMem (lineFeed_notMem_quoteString key), indentLines_of_notMem hcolon,
        ← print_indented_add more value indent hvalue, apply_ite (indentLines more),
        indentLines_cons_of_ne (by decide), ← printMembers_indented_add more members indent hmembers]
      rfl

end

theorem count_bracketed {first last : UInt8} (hfirst : first ≠ Byte.lineFeed)
    (hlast : last ≠ Byte.lineFeed) (indent : Nat) (body : Bytes) :
    (first :: body ++ (Layout.indented indent).newline ++ [last]).count Byte.lineFeed =
      body.count Byte.lineFeed + 1 := by
  rw [List.count_append, List.count_append, List.count_cons_of_ne hfirst, count_newline,
    List.count_cons_of_ne hlast, List.count_nil]

mutual

theorem count_print_indented : (d : Document) → (indent : Nat) → NumbersUnbroken d →
    (d.print (.indented indent)).count Byte.lineFeed = d.lineBreaks
  | .invalid, _, h => List.count_eq_zero.mpr (lineFeed_notMem_print h rfl (.indented _))
  | .null, _, h => List.count_eq_zero.mpr (lineFeed_notMem_print h rfl (.indented _))
  | .bool _, _, h => List.count_eq_zero.mpr (lineFeed_notMem_print h rfl (.indented _))
  | .number _, _, h => List.count_eq_zero.mpr (lineFeed_notMem_print h rfl (.indented _))
  | .string _, _, h => List.count_eq_zero.mpr (lineFeed_notMem_print h rfl (.indented _))
  | .array items, indent, h => by
      have hitems := countItems_print_indented items (indent + 2) (numbersUnbroken_array_iff.mp h)
      rw [print, lineBreaks]
      by_cases hempty : items.isEmpty = true
      · rw [if_pos hempty, if_pos hempty]
        decide
      · rw [if_neg hempty, if_neg hempty, count_bracketed (by decide) (by decide),
          Layout.deeper, hitems]
  | .object members, indent, h => by
      have hmembers := countMembers_print_indented members (indent + 2)
        (numbersUnbroken_object_iff.mp h)
      rw [print, lineBreaks]
      by_cases hempty : members.isEmpty = true
      · rw [if_pos hempty, if_pos hempty]
        decide
      · rw [if_neg hempty, if_neg hempty, count_bracketed (by decide) (by decide),
          Layout.deeper, hmembers]

theorem countItems_print_indented : (items : List Document) → (indent : Nat) →
    (∀ item ∈ items, NumbersUnbroken item) →
    (printItems (.indented indent) items).count Byte.lineFeed = lineBreaksItems items
  | [], _, _ => rfl
  | item :: items, indent, h => by
      obtain ⟨hitem, hitems⟩ := List.forall_mem_cons.mp h
      rw [printItems, lineBreaksItems, List.count_append, List.count_append, count_newline,
        count_print_indented item indent hitem, apply_ite (List.count Byte.lineFeed),
        List.count_cons_of_ne (by decide), countItems_print_indented items indent hitems]
      cases items with
      | nil => rfl
      | cons next items => rfl

theorem countMembers_print_indented : (members : List (Bytes × Document)) → (indent : Nat) →
    (∀ m ∈ members, NumbersUnbroken m.2) →
    (printMembers (.indented indent) members).count Byte.lineFeed = lineBreaksMembers members
  | [], _, _ => rfl
  | (key, value) :: members, indent, h => by
      obtain ⟨hvalue, hmembers⟩ := List.forall_mem_cons.mp h
      have hkey := List.count_eq_zero.mpr (lineFeed_notMem_quoteString key)
      have hcolon : (Layout.indented indent).colon.count Byte.lineFeed = 0 := rfl
      rw [printMembers, lineBreaksMembers, List.count_append, List.count_append,
        List.count_append, List.count_append, count_newline, hkey, hcolon,
        count_print_indented value indent hvalue, apply_ite (List.count Byte.lineFeed),
        List.count_cons_of_ne (by decide), countMembers_print_indented members indent hmembers]
      cases members with
      | nil => rfl
      | cons next members => rfl

end

/-! ## Parts -/

end Document

end JsonTable
