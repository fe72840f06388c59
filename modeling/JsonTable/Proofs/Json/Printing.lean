import JsonTable.Proofs.Json.Faults
import JsonTable.Proofs.Json.Widths

/-!
# Printing and reading

What a printer writes is a text of the grammar that denotes the value printed, in
any layout: the layouts differ only in blanks. As no text denotes two values,
reading gives the value back, unless its levels are too many, and then the text
is refused. Every value that was read can be printed in this way.
-/

namespace JsonTable.Json

open Bytes

/--
A value that JSON has a text for. The members of its objects stand in order, as
building an object leaves them.
-/
structure Printable (d : Document) : Prop where
  canonical : d.Canonical
  valid : ∀ level, ¬ Located d level .invalid
  numbers : ∀ level text, Located d level (.number text) → Number text

/-! ## Strings -/

theorem hexDigit_of_lt {digit : UInt8} (h : digit.toNat < 16) :
    HexDigit (Byte.hexDigit digit) digit.toNat := by
  have hall : ∀ n : Fin 16, (ascii "0123456789abcdef")[n.val]? =
      some (Byte.hexDigit (UInt8.ofNat n.val)) := by
    decide
  have hdigit := hall ⟨digit.toNat, h⟩
  rw [UInt8.ofNat_toNat] at hdigit
  exact Or.inl hdigit

/-- A control byte without a short escape is written by its number, which has two digits. -/
theorem pointEscape_of_lt {b : UInt8} (h : b.toNat < 0x80) :
    Character (ascii "\\u00" ++ [Byte.hexDigit (b / 16), Byte.hexDigit (b % 16)]) [b] := by
  have hhigh : (b / 16).toNat = b.toNat / 16 := UInt8.toNat_div b 16
  have hlow : (b % 16).toNat = b.toNat % 16 := UInt8.toNat_mod b 16
  have hzero : HexDigit 0x30 0 := Or.inl rfl
  have hunit := UnitEscape.digits hzero hzero
    (hexDigit_of_lt (show (b / 16).toNat < 16 by omega))
    (hexDigit_of_lt (show (b % 16).toNat < 16 by omega))
  have hnumber : 0 * 0x1000 + 0 * 0x100 + (b / 16).toNat * 0x10 + (b % 16).toNat = b.toNat := by
    omega
  rw [hnumber] at hunit
  obtain ⟨c, hc⟩ := exists_toNat_eq (show b.toNat.isValidChar from Or.inl (by omega))
  have hencoded : String.utf8EncodeChar c = [b] := by
    rw [← encode_eq_utf8EncodeChar, hc, Utf8.encode, if_pos h, UInt8.ofNat_toNat]
  rw [← hencoded]
  exact .point (.unit (hc ▸ hunit))

theorem character_escapeByte (b : UInt8) : Character (escapeByte b) [b] := by
  have hshort (letter : UInt8) {c : UInt8} (h : (letter, c) ∈ shortEscapes) :
      Character [Byte.backslash, letter] [c] := .short h
  unfold escapeByte
  by_cases hquote : b = Byte.quote
  · rw [if_pos hquote, hquote]
    exact hshort Byte.quote (by decide)
  rw [if_neg hquote]
  by_cases hbackslash : b = Byte.backslash
  · rw [if_pos hbackslash, hbackslash]
    exact hshort Byte.backslash (by decide)
  rw [if_neg hbackslash]
  by_cases hlineFeed : b = Byte.lineFeed
  · rw [if_pos hlineFeed, hlineFeed]
    exact hshort 0x6e (by decide)
  rw [if_neg hlineFeed]
  by_cases hreturn : b = Byte.carriageReturn
  · rw [if_pos hreturn, hreturn]
    exact hshort 0x72 (by decide)
  rw [if_neg hreturn]
  by_cases htab : b = Byte.tab
  · rw [if_pos htab, htab]
    exact hshort 0x74 (by decide)
  rw [if_neg htab]
  by_cases hbackspace : b = Byte.backspace
  · rw [if_pos hbackspace, hbackspace]
    exact hshort 0x62 (by decide)
  rw [if_neg hbackspace]
  by_cases hformFeed : b = Byte.formFeed
  · rw [if_pos hformFeed, hformFeed]
    exact hshort 0x66 (by decide)
  rw [if_neg hformFeed]
  by_cases hcontrol : b < 0x20
  · have hlt : b.toNat < 0x20 := UInt8.lt_iff_toNat_lt.mp hcontrol
    rw [if_pos hcontrol]
    exact pointEscape_of_lt (by omega)
  · rw [if_neg hcontrol]
    exact .raw (UInt8.not_lt.mp hcontrol) hquote hbackslash

theorem characters_escaped (text : Bytes) : Characters (text.flatMap escapeByte) text := by
  induction text with
  | nil => exact .nil
  | cons b text ih =>
      rw [List.flatMap_cons]
      exact .cons (character_escapeByte b) ih

theorem literal_quoteString (text : Bytes) : Literal (quoteString text) text :=
  .quoted (characters_escaped text)

/-! ## Values that can be printed -/

theorem canonicalItems_iff {items : List Document} :
    Document.CanonicalItems items ↔ ∀ item ∈ items, item.Canonical := by
  induction items with
  | nil => simp [Document.CanonicalItems]
  | cons item items ih => rw [Document.CanonicalItems, ih, List.forall_mem_cons]

theorem canonicalMembers_iff {members : Keyed Document} :
    Document.CanonicalMembers members ↔ ∀ m ∈ members, m.2.Canonical := by
  induction members with
  | nil => simp [Document.CanonicalMembers]
  | cons m members ih =>
      obtain ⟨key, value⟩ := m
      rw [Document.CanonicalMembers, ih, List.forall_mem_cons]

theorem printable_array_iff {items : List Document} :
    Printable (.array items) ↔ ∀ item ∈ items, Printable item := by
  constructor
  · intro h item hitem
    have hcanonical : item.Canonical := canonicalItems_iff.mp h.canonical item hitem
    exact ⟨hcanonical, fun level hx => h.valid (level + 1) (.item hitem hx),
      fun level text hx => h.numbers (level + 1) text (.item hitem hx)⟩
  · intro h
    refine ⟨canonicalItems_iff.mpr fun item hitem => (h item hitem).canonical, ?_, ?_⟩
    · intro level hx
      cases hx with
      | item hitem hx => exact (h _ hitem).valid _ hx
    · intro level text hx
      cases hx with
      | item hitem hx => exact (h _ hitem).numbers _ text hx

theorem printable_object_iff {members : Keyed Document} :
    Printable (.object members) ↔ members.Ascending ∧ ∀ m ∈ members, Printable m.2 := by
  constructor
  · intro h
    obtain ⟨hascending, hcanonical⟩ := h.canonical
    refine ⟨hascending, fun m hm => ?_⟩
    exact ⟨canonicalMembers_iff.mp hcanonical m hm,
      fun level hx => h.valid (level + 1) (.member hm hx),
      fun level text hx => h.numbers (level + 1) text (.member hm hx)⟩
  · rintro ⟨hascending, h⟩
    refine ⟨⟨hascending, canonicalMembers_iff.mpr fun m hm => (h m hm).canonical⟩, ?_, ?_⟩
    · intro level hx
      cases hx with
      | member hm hx => exact (h _ hm).valid _ hx
    · intro level text hx
      cases hx with
      | member hm hx => exact (h _ hm).numbers _ text hx

theorem Located.eq_of_kind {d x : Document} {level : Nat} (h : Located d level x)
    (harray : d.kind ≠ .array) (hobject : d.kind ≠ .object) : x = d := by
  cases h with
  | top => rfl
  | item => exact absurd rfl harray
  | member => exact absurd rfl hobject

/-- A value without parts can be printed as soon as it has a text at all. -/
theorem printable_of_kind {d : Document} (harray : d.kind ≠ .array) (hobject : d.kind ≠ .object)
    (hvalid : d.kind ≠ .invalid) (hnumber : ∀ text, d = .number text → Number text) :
    Printable d where
  canonical := by
    cases d with
    | array => exact absurd rfl harray
    | object => exact absurd rfl hobject
    | _ => trivial
  valid level hx := hvalid (hx.eq_of_kind harray hobject ▸ rfl)
  numbers level text hx := hnumber text (hx.eq_of_kind harray hobject).symm

theorem printable_null : Printable .null :=
  printable_of_kind nofun nofun nofun nofun

theorem printable_number_iff {text : Bytes} : Printable (.number text) ↔ Number text := by
  constructor
  · intro h
    exact h.numbers 0 text .top
  · intro h
    refine printable_of_kind nofun nofun nofun fun other hother => ?_
    cases hother
    exact h

/-! ## Texts of values -/

/-- Functions on documents may go on with the value of a member. -/
theorem sizeOf_value_lt {members : Keyed Document} {m : Bytes × Document} (h : m ∈ members) :
    sizeOf m.2 < sizeOf members := by
  have hmember := List.sizeOf_lt_of_mem h
  have hvalue : sizeOf m = 1 + sizeOf m.1 + sizeOf m.2 := Prod.mk.sizeOf_spec _ _
  omega

theorem blank_newline (layout : Layout) : Blank layout.newline := by
  cases layout with
  | compact => exact blank_nil
  | indented indent =>
      intro b hb
      rcases List.mem_cons.mp hb with rfl | hspace
      · decide
      · rw [List.eq_of_mem_replicate hspace]
        decide

theorem exists_colon (layout : Layout) :
    ∃ blanks, Blank blanks ∧ layout.colon = Byte.colon :: blanks := by
  cases layout with
  | compact => exact ⟨[], blank_nil, rfl⟩
  | indented indent =>
      have hspace : Blank [Byte.space] := by
        intro b hb
        rw [List.mem_singleton.mp hb]
        decide
      exact ⟨[Byte.space], hspace, rfl⟩

theorem member_quoteString {α : Type} {Item : Bytes → α → Prop} {text : Bytes} {x : α}
    (layout : Layout) (key : Bytes) (h : Item text x) :
    Member Item (quoteString key ++ layout.colon ++ text) (key, x) := by
  obtain ⟨blanks, hblanks, hcolon⟩ := exists_colon layout
  have hmember : Member Item (quoteString key ++ [] ++ Byte.colon :: blanks ++ text) (key, x) :=
    .pair (literal_quoteString key) blank_nil hblanks h
  rwa [List.append_nil, ← hcolon] at hmember

theorem printItems_eq (layout : Layout) (items : List Document) :
    Document.printItems layout items =
      [Byte.comma].intercalate (items.map fun item => layout.newline ++ item.print layout) := by
  induction items with
  | nil => rfl
  | cons item items ih =>
      rw [Document.printItems, ih]
      cases items with
      | nil => simp
      | cons next items => simp

theorem printMembers_eq (layout : Layout) (members : Keyed Document) :
    Document.printMembers layout members = [Byte.comma].intercalate
      (members.map fun m =>
        layout.newline ++ (quoteString m.1 ++ layout.colon ++ m.2.print layout)) := by
  induction members with
  | nil => rfl
  | cons m members ih =>
      obtain ⟨key, value⟩ := m
      rw [Document.printMembers, ih]
      cases members with
      | nil => simp
      | cons next members => simp

section Sequences

variable {α : Type} {Item : Bytes → α → Prop} {print : α → Bytes} {newline blanks : Bytes}

/-- Blanks before each item are its own, and those after all belong to the last one. -/
theorem separated_intercalate (hnewline : Blank newline) (hblanks : Blank blanks) :
    (xs : List α) → xs ≠ [] → (∀ x ∈ xs, Item (print x) x) →
      Separated Item ([Byte.comma].intercalate (xs.map fun x => newline ++ print x) ++ blanks) xs
  | [], hne, _ => absurd rfl hne
  | [x], _, h => by
      rw [List.map_singleton, List.intercalate_singleton]
      exact .last (.around hnewline (h x List.mem_cons_self) hblanks)
  | x :: y :: ys, _, h => by
      have hx := h x List.mem_cons_self
      have hrest := separated_intercalate hnewline hblanks (y :: ys) (List.cons_ne_nil _ _)
        fun z hz => h z (List.mem_cons_of_mem x hz)
      have hcons := Separated.cons (.around hnewline hx blank_nil) hrest
      have hprinted : [Byte.comma].intercalate ((x :: y :: ys).map fun x => newline ++ print x)
          ++ blanks = newline ++ print x ++ [] ++ Byte.comma ::
            ([Byte.comma].intercalate ((y :: ys).map fun x => newline ++ print x) ++ blanks) := by
        simp
      rwa [hprinted]

theorem enclosed_intercalate (first last : UInt8) (hnewline : Blank newline)
    (hblanks : Blank blanks) {xs : List α} (h : ∀ x ∈ xs, Item (print x) x) :
    Enclosed first last Item
      (if xs.isEmpty then [first, last]
        else first :: [Byte.comma].intercalate (xs.map fun x => newline ++ print x)
          ++ blanks ++ [last]) xs := by
  cases xs with
  | nil => exact .empty blank_nil
  | cons x xs =>
      exact .items (separated_intercalate hnewline hblanks _ (List.cons_ne_nil _ _) h)

end Sequences

/-- In every layout the printed text denotes the value. -/
theorem value_print :
    (d : Document) → (layout : Layout) → Printable d → Value (d.print layout) d
  | .invalid, _, h => absurd .top (h.valid 0)
  | .null, _, _ => .nullWord
  | .bool true, _, _ => .trueWord
  | .bool false, _, _ => .falseWord
  | .number _, _, h => .number (h.numbers 0 _ .top)
  | .string text, _, _ => .string (literal_quoteString text)
  | .array items, layout, h => by
      have hitems : ∀ item ∈ items, Value (item.print layout.deeper) item := fun item hitem =>
        value_print item layout.deeper (printable_array_iff.mp h item hitem)
      rw [Document.print, printItems_eq]
      exact .array (enclosed_intercalate _ _ (blank_newline _) (blank_newline _) hitems)
  | .object members, layout, h => by
      obtain ⟨hascending, hprintable⟩ := printable_object_iff.mp h
      have hmembers : ∀ m ∈ members, Member Value
          (quoteString m.1 ++ layout.deeper.colon ++ m.2.print layout.deeper) m := by
        intro m hm
        have hsize := sizeOf_value_lt hm
        exact member_quoteString layout.deeper m.1 (value_print m.2 layout.deeper (hprintable m hm))
      rw [Document.print, printMembers_eq]
      exact .object (enclosed_intercalate _ _ (blank_newline _) (blank_newline _) hmembers)
        hascending.nodup (.refl _) hascending

theorem Padded.bare {α : Type} {Item : Bytes → α → Prop} {text : Bytes} {x : α}
    (h : Item text x) : Padded Item text x := by
  have hpadded : Padded Item ([] ++ text ++ []) x := .around blank_nil h blank_nil
  rwa [List.nil_append, List.append_nil] at hpadded

theorem padded_print {d : Document} (h : Printable d) (layout : Layout) :
    Padded Value (d.print layout) d :=
  .bare (value_print d layout h)

/-! ## One text, one value -/

theorem Shallow.mono {levels bound : Nat} {d : Document} (h : Shallow levels d)
    (hle : levels ≤ bound) : Shallow bound d :=
  fun level x hx => Nat.lt_of_lt_of_le (h level x hx) hle

theorem exists_shallow_forall {α : Type} {value : α → Document} :
    (xs : List α) → (∀ x ∈ xs, ∃ levels, Shallow levels (value x)) →
      ∃ levels, ∀ x ∈ xs, Shallow levels (value x)
  | [], _ => ⟨0, nofun⟩
  | x :: xs, h => by
      obtain ⟨first, hfirst⟩ := h x List.mem_cons_self
      obtain ⟨rest, hrest⟩ := exists_shallow_forall xs fun y hy => h y (List.mem_cons_of_mem x hy)
      refine ⟨max first rest, List.forall_mem_cons.mpr ⟨?_, fun y hy => ?_⟩⟩
      · exact hfirst.mono (Nat.le_max_left _ _)
      · exact (hrest y hy).mono (Nat.le_max_right _ _)

theorem exists_shallow (d : Document) : ∃ levels, Shallow levels d := by
  cases d with
  | array items =>
      obtain ⟨levels, h⟩ := exists_shallow_forall items fun item _ => exists_shallow item
      exact ⟨levels + 1, shallow_array_iff.mpr h⟩
  | object members =>
      have hmembers : ∀ m ∈ members, ∃ levels, Shallow levels m.2 := by
        intro m hm
        have hsize := sizeOf_value_lt hm
        exact exists_shallow m.2
      obtain ⟨levels, h⟩ := exists_shallow_forall members hmembers
      exact ⟨levels + 1, shallow_object_iff.mpr h⟩
  | _ => exact ⟨1, shallow_of_kind nofun nofun⟩

/-- The reader decides between two values, once it may go as deep as either of them. -/
theorem Padded.unique {text : Bytes} {d e : Document} (hd : Padded Value text d)
    (he : Padded Value text e) : d = e := by
  obtain ⟨first, hfirst⟩ := exists_shallow d
  obtain ⟨second, hsecond⟩ := exists_shallow e
  have hread {x : Document} (h : Padded Value text x) (hx : Shallow (max first second) x) :
      ∃ blanks, Blank blanks ∧ readValue (max first second) text = .ok (x, blanks) :=
    (padded_and_iff.mpr ⟨h, hx⟩).exists_readValue_eq
  obtain ⟨_, _, hreadd⟩ := hread hd (hfirst.mono (Nat.le_max_left _ _))
  obtain ⟨_, _, hreade⟩ := hread he (hsecond.mono (Nat.le_max_right _ _))
  cases hreadd.symm.trans hreade
  rfl

/-- A text denotes nothing but its value, and not even that if it is too deep. -/
theorem denotes_iff_of_padded {mark body : Bytes} {d e : Document}
    (hmark : mark = [] ∨ mark = [0xef, 0xbb, 0xbf]) (h : Padded Value body d) :
    Denotes (mark ++ body) e ↔ e = d ∧ ∀ level x, Located d level x → level ≤ 512 := by
  constructor
  · rintro ⟨mark', body', htext, hmark', hbody, hdepth⟩
    have heq : body' = body := by
      rcases hmark with rfl | rfl
      · rw [List.nil_append] at htext
        rcases hmark' with rfl | rfl
        · exact htext.symm
        · rw [htext] at h
          exact absurd h Padded.not_marked
      · rcases hmark' with rfl | rfl
        · rw [List.nil_append] at htext
          rw [← htext] at hbody
          exact absurd hbody Padded.not_marked
        · exact (List.append_cancel_left htext).symm
    rw [heq] at hbody
    obtain rfl := hbody.unique h
    exact ⟨rfl, hdepth⟩
  · rintro ⟨rfl, hdepth⟩
    exact ⟨mark, body, rfl, hmark, h, hdepth⟩

theorem Enclosed.forall_mem {α : Type} {first last : UInt8} {Item : Bytes → α → Prop}
    {P : α → Prop} {text : Bytes} {xs : List α} (h : Enclosed first last Item text xs)
    (himp : ∀ t x, Item t x → P x) : ∀ x ∈ xs, P x := by
  have hitem : (fun t x => Item t x ∧ P x) = Item := by
    funext t x
    exact propext ⟨And.left, fun hx => ⟨hx, himp t x hx⟩⟩
  rw [← hitem] at h
  exact (enclosed_and_iff.mp h).2

theorem printable_of_valueWithin {levels : Nat} {text : Bytes} {d : Document}
    (h : ValueWithin levels text d) : Printable d := by
  induction levels generalizing text d with
  | zero => exact absurd h.2 (not_shallow_zero d)
  | succ levels ih =>
      cases d with
      | invalid => cases h.1
      | null => exact printable_null
      | bool value => exact printable_of_kind nofun nofun nofun nofun
      | string text => exact printable_of_kind nofun nofun nofun nofun
      | number text =>
          cases h.1 with
          | number hnumber => exact printable_number_iff.mpr hnumber
      | array items =>
          have henclosed := valueWithin_array_iff.mp h
          exact printable_array_iff.mpr (henclosed.forall_mem fun _ _ hitem => ih hitem)
      | object members =>
          obtain ⟨written, henclosed, _, hperm, hascending⟩ := valueWithin_object_iff.mp h
          have hwritten : ∀ m ∈ written, Printable m.2 := by
            refine henclosed.forall_mem fun t m hm => ?_
            obtain ⟨_, _, _, hvalue⟩ := hm
            exact ih hvalue
          exact printable_object_iff.mpr
            ⟨hascending, fun m hm => hwritten m (hperm.mem_iff.mp hm)⟩

theorem printable_of_denotes {text : Bytes} {d : Document} (h : Denotes text d) :
    Printable d := by
  obtain ⟨_, _, _, _, hbody, hdepth⟩ := h
  have hwithin := paddedWithin_iff.mpr ⟨hbody, hdepth⟩
  cases hwithin with
  | around _ hvalue _ => exact printable_of_valueWithin hvalue

/-! ## Reading what was printed -/

end JsonTable.Json
