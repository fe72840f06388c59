import JsonTable.Proofs.Json.Printing
import JsonTable.Proofs.Utf8

/-!
# Documents in UTF-8

In a text that is well-formed UTF-8, what the grammar puts around strings and numbers
is ASCII, and so are the escapes in a string. So strings, keys and numbers are
well-formed in what the text denotes, although the reader takes strings apart byte by
byte. The printer adds ASCII only, and so keeps them well-formed.
-/

namespace JsonTable

open Bytes

/-- The texts that a value holds itself, outside of the values within it. -/
def Document.OwnTexts (P : Bytes → Prop) : Document → Prop
  | .string text => P text
  | .number text => P text
  | .object members => ∀ m ∈ members, P m.1
  | _ => True

namespace Json

open Utf8

def AllTexts (P : Bytes → Prop) (d : Document) : Prop :=
  ∀ level x, Located d level x → x.OwnTexts P

section AllTexts

variable {P : Bytes → Prop}

theorem allTexts_array_iff {items : List Document} :
    AllTexts P (.array items) ↔ ∀ item ∈ items, AllTexts P item := by
  constructor
  · intro h item hitem level x hx
    exact h (level + 1) x (.item hitem hx)
  · intro h level x hx
    cases hx with
    | top => trivial
    | item hitem hx => exact h _ hitem _ _ hx

theorem allTexts_object_iff {members : Keyed Document} :
    AllTexts P (.object members) ↔ ∀ m ∈ members, P m.1 ∧ AllTexts P m.2 := by
  constructor
  · intro h m hm
    exact ⟨h 0 _ .top m hm, fun level x hx => h (level + 1) x (.member hm hx)⟩
  · intro h level x hx
    cases hx with
    | top => exact fun m hm => (h m hm).1
    | member hm hx => exact (h _ hm).2 _ _ hx

theorem allTexts_of_kind {d : Document} (harray : d.kind ≠ .array) (hobject : d.kind ≠ .object)
    (h : d.OwnTexts P) : AllTexts P d := by
  intro level x hx
  exact (hx.eq_of_kind harray hobject).symm ▸ h

end AllTexts

/-! ## Strings -/

theorem HexDigit.lt_ascii {b : UInt8} {value : Nat} (h : HexDigit b value) : b < 0x80 := by
  have hlower : Ascii (ascii "0123456789abcdef") := by decide
  have hupper : Ascii (ascii "0123456789ABCDEF") := by decide
  rcases h with h | h
  · exact hlower b (List.mem_of_getElem? h)
  · exact hupper b (List.mem_of_getElem? h)

theorem UnitEscape.ascii {text : Bytes} {unit : Nat} (h : UnitEscape text unit) :
    Ascii text ∧ text ≠ [] := by
  cases h with
  | digits ha hb hc hd =>
      refine ⟨fun x hx => ?_, List.cons_ne_nil _ _⟩
      simp only [List.mem_cons, List.not_mem_nil, or_false] at hx
      rcases hx with rfl | rfl | rfl | rfl | rfl | rfl
      · decide
      · decide
      · exact ha.lt_ascii
      · exact hb.lt_ascii
      · exact hc.lt_ascii
      · exact hd.lt_ascii

theorem PointEscape.ascii {text : Bytes} {c : Char} (h : PointEscape text c) :
    Ascii text ∧ text ≠ [] := by
  cases h with
  | unit hunit => exact hunit.ascii
  | pair _ _ hhigh hlow _ =>
      exact ⟨hhigh.ascii.1.append hlow.ascii.1, List.append_ne_nil_of_left_ne_nil hhigh.ascii.2 _⟩

theorem wellFormed_utf8EncodeChar (c : Char) : WellFormed (String.utf8EncodeChar c) := by
  rw [← encode_eq_utf8EncodeChar]
  exact wellFormed_encode c

theorem ascii_shortEscape {letter b : UInt8} (h : (letter, b) ∈ shortEscapes) :
    letter < 0x80 ∧ b < 0x80 := by
  have hall : shortEscapes.all (fun escape => escape.1 < 0x80 && escape.2 < 0x80) = true := rfl
  simpa using List.all_eq_true.mp hall _ h

/-- A byte stands for itself, or else it is in an escape, which is ASCII. -/
theorem Character.cases {text bytes : Bytes} (h : Character text bytes) :
    text = bytes ∨ (Ascii text ∧ text ≠ []) ∧ WellFormed bytes := by
  cases h with
  | raw => exact Or.inl rfl
  | short hshort =>
      obtain ⟨hletter, hb⟩ := ascii_shortEscape hshort
      have htext : Ascii [Byte.backslash, _] :=
        List.forall_mem_cons.mpr ⟨by decide, List.forall_mem_singleton.mpr hletter⟩
      exact Or.inr ⟨⟨htext, List.cons_ne_nil _ _⟩, wellFormed_singleton hb⟩
  | point hescape => exact Or.inr ⟨hescape.ascii, wellFormed_utf8EncodeChar _⟩

/-- What was read before, of which the last character may still be incomplete, is kept as it is. -/
theorem Characters.wellFormed_append {text bytes : Bytes} (h : Characters text bytes)
    (before : Bytes) (hbefore : WellFormed (before ++ text)) : WellFormed (before ++ bytes) := by
  induction h generalizing before with
  | nil => exact hbefore
  | @cons text more bytes moreBytes hcharacter _ ih =>
      rcases hcharacter.cases with rfl | ⟨⟨hascii, hne⟩, hbytes⟩
      · rw [← List.append_assoc] at hbefore ⊢
        exact ih (before ++ text) hbefore
      · obtain ⟨hbefore, hmore⟩ := (hascii.wellFormed_append_append_iff hne).mp hbefore
        exact hbefore.append (hbytes.append (ih [] hmore))

theorem Literal.wellFormed {literal text : Bytes} (h : Literal literal text)
    (hliteral : WellFormed literal) : WellFormed text := by
  cases h with
  | quoted hcharacters =>
      obtain ⟨hopened, _⟩ := wellFormed_of_append_cons (by decide) hliteral
      exact hcharacters.wellFormed_append [] ((wellFormed_cons_iff (by decide)).mp hopened)

/-! ## Values -/

theorem Blank.ascii {text : Bytes} (h : Blank text) : Ascii text := by
  have hblanks : Ascii [Byte.space, Byte.tab, Byte.lineFeed, Byte.carriageReturn] := by decide
  exact fun b hb => hblanks b (h b hb)

section Sequences

variable {α : Type} {Item : Bytes → α → Prop} {P : α → Prop} {text : Bytes}

theorem Padded.of_wellFormed {x : α} (h : Padded Item text x) (htext : WellFormed text)
    (hitem : ∀ t x, Item t x → WellFormed t → P x) : P x := by
  cases h with
  | around hbefore hx hafter =>
      rw [hafter.ascii.wellFormed_append_right_iff, hbefore.ascii.wellFormed_append_iff] at htext
      exact hitem _ _ hx htext

theorem Separated.of_wellFormed {xs : List α} (h : Separated Item text xs)
    (htext : WellFormed text) (hitem : ∀ t x, Item t x → WellFormed t → P x) :
    ∀ x ∈ xs, P x := by
  induction h with
  | last hpadded => exact List.forall_mem_singleton.mpr (hpadded.of_wellFormed htext hitem)
  | cons hpadded _ ih =>
      obtain ⟨hfirst, hrest⟩ := wellFormed_of_append_cons (by decide) htext
      exact List.forall_mem_cons.mpr ⟨hpadded.of_wellFormed hfirst hitem, ih hrest⟩

theorem Enclosed.of_wellFormed {first last : UInt8} (hfirst : first < 0x80) (hlast : last < 0x80)
    {xs : List α} (h : Enclosed first last Item text xs) (htext : WellFormed text)
    (hitem : ∀ t x, Item t x → WellFormed t → P x) : ∀ x ∈ xs, P x := by
  cases h with
  | empty => nofun
  | items hitems =>
      obtain ⟨hopened, _⟩ := wellFormed_of_append_cons hlast htext
      exact hitems.of_wellFormed ((wellFormed_cons_iff hfirst).mp hopened) hitem

end Sequences

theorem Member.of_wellFormed {Item : Bytes → Document → Prop} {P : Document → Prop} {text : Bytes}
    {m : Bytes × Document} (h : Member Item text m) (htext : WellFormed text)
    (hitem : ∀ t x, Item t x → WellFormed t → P x) : WellFormed m.1 ∧ P m.2 := by
  cases h with
  | pair hliteral hbefore hafter hx =>
      rw [List.append_assoc, List.cons_append] at htext
      obtain ⟨hkey, hvalue⟩ := wellFormed_of_append_cons (by decide) htext
      rw [hbefore.ascii.wellFormed_append_right_iff] at hkey
      rw [hafter.ascii.wellFormed_append_iff] at hvalue
      exact ⟨hliteral.wellFormed hkey, hitem _ _ hx hvalue⟩

/-- What a well-formed text denotes has well-formed texts only. -/
theorem allTexts_of_valueWithin {levels : Nat} {text : Bytes} {d : Document}
    (h : ValueWithin levels text d) (htext : WellFormed text) : AllTexts WellFormed d := by
  induction levels generalizing text d with
  | zero => exact absurd h.2 (not_shallow_zero d)
  | succ levels ih =>
      cases d with
      | array items =>
          have henclosed := valueWithin_array_iff.mp h
          exact allTexts_array_iff.mpr
            (henclosed.of_wellFormed (by decide) (by decide) htext fun _ _ hitem => ih hitem)
      | object members =>
          obtain ⟨written, henclosed, _, hperm, _⟩ := valueWithin_object_iff.mp h
          have hwritten := henclosed.of_wellFormed (by decide) (by decide) htext
            fun _ _ hm ht => hm.of_wellFormed ht fun _ _ hvalue => ih hvalue
          exact allTexts_object_iff.mpr fun m hm => hwritten m (hperm.mem_iff.mp hm)
      | string text =>
          cases h.1 with
          | string hliteral => exact allTexts_of_kind nofun nofun (hliteral.wellFormed htext)
      | number text =>
          cases h.1 with
          | number _ => exact allTexts_of_kind nofun nofun htext
      | _ => exact allTexts_of_kind nofun nofun trivial

/-- What follows a byte order mark begins with a character of its own. -/
theorem Padded.exists_ascii_cons {text : Bytes} {d : Document} (h : Padded Value text d) :
    ∃ b rest, text = b :: rest ∧ b < 0x80 := by
  have hfirst : Ascii firstBytes := by decide
  cases h with
  | @around before value after _ hbefore hvalue _ =>
      cases before with
      | nil =>
          obtain ⟨b, rest, rfl, hb⟩ := hvalue.exists_eq_cons
          exact ⟨b, rest ++ after, rfl, hfirst b hb⟩
      | cons b before => exact ⟨b, _, rfl, hbefore.ascii b List.mem_cons_self⟩

theorem allTexts_of_ofText {text : Bytes} {d : Document} (h : Document.ofText text = .ok d)
    (htext : WellFormed text) : AllTexts WellFormed d := by
  obtain ⟨mark, body, rfl, _, hbody, hdepth⟩ := ofText_eq_ok_iff.mp h
  have hwellFormed : WellFormed body := by
    obtain ⟨b, rest, rfl, hb⟩ := hbody.exists_ascii_cons
    exact (wellFormed_cons_iff hb).mpr (wellFormed_of_append_cons hb htext).2
  exact (paddedWithin_iff.mpr ⟨hbody, hdepth⟩).of_wellFormed hwellFormed
    fun _ _ hvalue ht => allTexts_of_valueWithin hvalue ht

/-! ## Printing -/

theorem wellFormed_escapeByte {b : UInt8} (h : b < 0x80) : WellFormed (escapeByte b) := by
  rcases (character_escapeByte b).cases with hkept | ⟨⟨hascii, _⟩, _⟩
  · rw [hkept]
    exact wellFormed_singleton h
  · exact hascii.wellFormed

theorem escapeByte_of_le {b : UInt8} (h : 0x80 ≤ b) : escapeByte b = [b] := by
  have hlt {c : UInt8} (hc : c < 0x80) : c < b := UInt8.lt_of_lt_of_le hc h
  have hne {c : UInt8} (hc : c < 0x80) : b ≠ c := (UInt8.ne_of_lt (hlt hc)).symm
  have hcontrol : ¬ b < 0x20 := UInt8.not_lt.mpr (UInt8.le_of_lt (hlt (by decide)))
  unfold escapeByte
  rw [if_neg (hne (by decide)), if_neg (hne (by decide)), if_neg (hne (by decide)),
    if_neg (hne (by decide)), if_neg (hne (by decide)), if_neg (hne (by decide)),
    if_neg (hne (by decide)), if_neg hcontrol]

theorem wellFormed_quoteString {text : Bytes} (h : WellFormed text) :
    WellFormed (quoteString text) := by
  have hescaped : WellFormed (text.flatMap escapeByte) :=
    h.flatMap (fun _ => wellFormed_escapeByte) fun _ => escapeByte_of_le
  have hopened : WellFormed (Byte.quote :: text.flatMap escapeByte) :=
    (wellFormed_cons_iff (by decide)).mpr hescaped
  exact hopened.append (wellFormed_singleton (by decide))

theorem wellFormed_newline (layout : Layout) : WellFormed layout.newline :=
  (blank_newline layout).ascii.wellFormed

theorem wellFormed_colon (layout : Layout) : WellFormed layout.colon := by
  obtain ⟨blanks, hblanks, hcolon⟩ := exists_colon layout
  rw [hcolon, wellFormed_cons_iff (by decide)]
  exact hblanks.ascii.wellFormed

theorem wellFormed_bracketed {first last : UInt8} (hfirst : first < 0x80) (hlast : last < 0x80)
    (layout : Layout) {texts : List Bytes} (h : ∀ text ∈ texts, WellFormed text) :
    WellFormed (first :: [Byte.comma].intercalate texts ++ layout.newline ++ [last]) := by
  have hcomma : WellFormed [Byte.comma] := wellFormed_singleton (by decide)
  have hopened := (wellFormed_cons_iff hfirst).mpr (hcomma.intercalate texts h)
  exact (hopened.append (wellFormed_newline layout)).append (wellFormed_singleton hlast)

/-- The printer puts nothing but ASCII around the texts of a value. -/
theorem wellFormed_print :
    (d : Document) → (layout : Layout) → AllTexts WellFormed d → WellFormed (d.print layout)
  | .invalid, _, _ => by
      rw [Document.print]
      exact Ascii.wellFormed (by decide)
  | .null, _, _ => by
      rw [Document.print]
      exact Ascii.wellFormed (by decide)
  | .bool true, _, _ => by
      rw [Document.print]
      exact Ascii.wellFormed (by decide)
  | .bool false, _, _ => by
      rw [Document.print]
      exact Ascii.wellFormed (by decide)
  | .number _, _, h => h 0 _ .top
  | .string _, _, h => wellFormed_quoteString (h 0 _ .top)
  | .array items, layout, h => by
      rw [Document.print, printItems_eq]
      split
      · exact Ascii.wellFormed (by decide)
      · refine wellFormed_bracketed (by decide) (by decide) layout (List.forall_mem_map.mpr ?_)
        intro item hitem
        have hprinted := wellFormed_print item layout.deeper (allTexts_array_iff.mp h item hitem)
        exact (wellFormed_newline _).append hprinted
  | .object members, layout, h => by
      rw [Document.print, printMembers_eq]
      split
      · exact Ascii.wellFormed (by decide)
      · refine wellFormed_bracketed (by decide) (by decide) layout (List.forall_mem_map.mpr ?_)
        intro m hm
        obtain ⟨hkey, hvalue⟩ := allTexts_object_iff.mp h m hm
        have hsize := sizeOf_value_lt hm
        have hprinted := wellFormed_print m.2 layout.deeper hvalue
        have hcolon := (wellFormed_quoteString hkey).append (wellFormed_colon layout.deeper)
        exact (wellFormed_newline _).append (hcolon.append hprinted)

end Json

end JsonTable
