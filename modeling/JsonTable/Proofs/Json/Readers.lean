import JsonTable.Json.Reader
import JsonTable.Proofs.Json.Grammar
import JsonTable.Proofs.Reports

/-!
# Readers and grammars

`Reads` relates a reader to the part of the grammar that it reads from the front
of a text. Sequences are treated here for any items, since arrays and objects
differ in their items only: if the items are read, so is the sequence of them.
-/

namespace JsonTable.Json

section Readers

variable {α : Type}

/-- What may follow a value: the end of the text, or a byte that no number goes on with. -/
def Ends (rest : Bytes) : Prop :=
  ∀ b, rest.head? = some b → isSpace b = true ∨
    b ∈ [Byte.comma, Byte.closeBracket, Byte.closeBrace]

/-- A text is not taken for blanks or for the end of a sequence. -/
def Begins (text : Bytes) : Prop :=
  ∃ b rest, text = b :: rest ∧ isSpace b = false ∧ b ∉ [Byte.closeBracket, Byte.closeBrace]

/-- The reader takes an item off the front of a text, and takes every item that ends. -/
structure Reads (read : Bytes → Reading (α × Bytes)) (Item : Bytes → α → Prop) : Prop where
  sound {text rest : Bytes} {x : α} : read text = .ok (x, rest) →
    ∃ used, text = used ++ rest ∧ Item used x
  complete {used rest : Bytes} {x : α} : Item used x → Ends rest →
    read (used ++ rest) = .ok (x, rest)

inductive Led (Item : Bytes → α → Prop) : Bytes → α → Prop where
  | after {blanks text : Bytes} {x : α} : Blank blanks → Item text x →
      Led Item (blanks ++ text) x

end Readers

/-! ## Blanks -/

theorem isSpace_iff {b : UInt8} :
    isSpace b = true ↔ b ∈ [Byte.space, Byte.tab, Byte.lineFeed, Byte.carriageReturn] := by
  simp [isSpace, or_assoc]

theorem blank_nil : Blank [] := by
  simp [Blank]

theorem skipSpaces_append {blanks : Bytes} (h : Blank blanks) (text : Bytes) :
    skipSpaces (blanks ++ text) = skipSpaces text :=
  List.dropWhile_append_of_pos fun b hb => isSpace_iff.mpr (h b hb)

theorem skipSpaces_cons {b : UInt8} (h : isSpace b = false) (rest : Bytes) :
    skipSpaces (b :: rest) = b :: rest :=
  List.dropWhile_cons_of_neg (by simp [h])

theorem exists_blank (text : Bytes) :
    ∃ blanks, Blank blanks ∧ text = blanks ++ skipSpaces text := by
  refine ⟨text.takeWhile isSpace, fun b hb => ?_, List.takeWhile_append_dropWhile.symm⟩
  have hall : (text.takeWhile isSpace).all isSpace = true := List.all_takeWhile
  exact isSpace_iff.mp (List.all_eq_true.mp hall b hb)

theorem skipSpaces_eq_cons_iff {text rest : Bytes} {b : UInt8} :
    skipSpaces text = b :: rest ↔
      isSpace b = false ∧ ∃ blanks, Blank blanks ∧ text = blanks ++ b :: rest := by
  constructor
  · intro h
    have hb : isSpace b = false := by
      have hnot := List.head?_dropWhile_not isSpace text
      rw [show text.dropWhile isSpace = b :: rest from h] at hnot
      simpa using hnot
    obtain ⟨blanks, hblanks, htext⟩ := exists_blank text
    exact ⟨hb, blanks, hblanks, h ▸ htext⟩
  · rintro ⟨hb, blanks, hblanks, rfl⟩
    rw [skipSpaces_append hblanks, skipSpaces_cons hb]

theorem skipSpaces_eq_nil_iff {text : Bytes} : skipSpaces text = [] ↔ Blank text := by
  constructor
  · intro h
    obtain ⟨blanks, hblanks, htext⟩ := exists_blank text
    rw [h, List.append_nil] at htext
    exact htext ▸ hblanks
  · intro h
    have hskip := skipSpaces_append h []
    rwa [List.append_nil] at hskip

/-! ## Ends -/

theorem ends_nil : Ends [] := by
  simp [Ends]

theorem ends_cons {b : UInt8} (h : b ∈ [Byte.comma, Byte.closeBracket, Byte.closeBrace])
    (rest : Bytes) : Ends (b :: rest) := by
  intro c hc
  cases hc
  exact Or.inr h

theorem Ends.blank_append {blanks rest : Bytes} (hblanks : Blank blanks) (h : Ends rest) :
    Ends (blanks ++ rest) := by
  cases blanks with
  | nil => exact h
  | cons b blanks =>
      intro c hc
      cases hc
      exact Or.inl (isSpace_iff.mpr (hblanks b List.mem_cons_self))

/-! ## Sequences -/

section Sequences

variable {α : Type} {Item : Bytes → α → Prop} {Fresh : List α → α → Prop}
  {enclosure : Enclosure} {opened : Bytes} {readItem : List α → Bytes → Reading (α × Bytes)}

def Admitted (Fresh : List α → α → Prop) : (done xs : List α) → Prop
  | _, [] => True
  | done, x :: xs => Fresh done x ∧ Admitted Fresh (x :: done) xs

theorem Led.padded {text blanks : Bytes} {x : α} (h : Led Item text x) (hblanks : Blank blanks) :
    Padded Item (text ++ blanks) x := by
  obtain ⟨hbefore, hitem⟩ := h
  exact .around hbefore hitem hblanks

theorem Padded.exists_led {text : Bytes} {x : α} (h : Padded Item text x) :
    ∃ used blanks, text = used ++ blanks ∧ Led Item used x ∧ Blank blanks := by
  obtain ⟨hbefore, hitem, hafter⟩ := h
  exact ⟨_, _, rfl, .after hbefore hitem, hafter⟩

/-- Items that are read one after the other are written with commas between them. -/
theorem readItems_sound
    (hitem : ∀ done, Reads (readItem done) fun text x => Led Item text x ∧ Fresh done x)
    {rounds : Nat} {done xs : List α} {text rest : Bytes}
    (h : readItems enclosure opened readItem rounds done text = .ok (xs, rest)) :
    ∃ used items, text = used ++ enclosure.close :: rest ∧ Separated Item used items ∧
      Admitted Fresh done items ∧ xs = done.reverse ++ items := by
  induction rounds generalizing done text with
  | zero => cases h
  | succ rounds ih =>
      rw [readItems] at h
      simp only [except_bind_eq_ok, Prod.exists] at h
      obtain ⟨x, after, hx, h⟩ := h
      obtain ⟨used, rfl, hled, hfresh⟩ := (hitem done).sound hx
      split at h
      · cases h
      · next b tail hskip =>
          obtain ⟨_, blanks, hblanks, rfl⟩ := skipSpaces_eq_cons_iff.mp hskip
          have hpadded : Padded Item (used ++ blanks) x := hled.padded hblanks
          split at h
          · next hclose =>
              cases h
              exact ⟨used ++ blanks, [x], by simp [hclose], .last hpadded,
                ⟨hfresh, trivial⟩, by simp⟩
          split at h
          · next hcomma =>
              obtain ⟨more, items, rfl, hmore, hadmitted, rfl⟩ := ih h
              exact ⟨used ++ blanks ++ Byte.comma :: more, x :: items, by simp [hcomma],
                .cons hpadded hmore, ⟨hfresh, hadmitted⟩, by simp⟩
          · cases h

/-- One round takes an item, the blanks around it and the byte that ends it. -/
theorem readItems_succ
    (hitem : ∀ done, Reads (readItem done) fun text x => Led Item text x ∧ Fresh done x)
    {rounds : Nat} {done : List α} {used rest : Bytes} {x : α} {b : UInt8}
    (hpadded : Padded Item used x) (hfresh : Fresh done x)
    (hb : b ∈ [Byte.comma, Byte.closeBracket, Byte.closeBrace]) :
    readItems enclosure opened readItem (rounds + 1) done (used ++ b :: rest) =
      if b = enclosure.close then .ok ((x :: done).reverse, rest)
      else if b = Byte.comma then readItems enclosure opened readItem rounds (x :: done) rest
      else .error (faultAt (b :: rest) 1 enclosure.expectedEnd) := by
  obtain ⟨text, blanks, rfl, hled, hblanks⟩ := hpadded.exists_led
  have hsolid : isSpace b = false := by
    simp only [List.mem_cons, List.not_mem_nil, or_false] at hb
    rcases hb with rfl | rfl | rfl <;> rfl
  have hends : Ends (blanks ++ b :: rest) := (ends_cons hb rest).blank_append hblanks
  have hread := (hitem done).complete ⟨hled, hfresh⟩ hends
  rw [readItems, List.append_assoc, hread]
  simp only [bind, Except.bind, skipSpaces_append hblanks, skipSpaces_cons hsolid]
  rfl

/-- The rounds suffice: every item is followed by a comma or by the end. -/
theorem readItems_complete
    (hitem : ∀ done, Reads (readItem done) fun text x => Led Item text x ∧ Fresh done x)
    (hclose : enclosure.close ∈ [Byte.closeBracket, Byte.closeBrace])
    {rounds : Nat} {done items : List α} {used : Bytes} (rest : Bytes)
    (h : Separated Item used items) (hadmitted : Admitted Fresh done items)
    (hrounds : used.length < rounds) :
    readItems enclosure opened readItem rounds done (used ++ enclosure.close :: rest) =
      .ok (done.reverse ++ items, rest) := by
  obtain ⟨rounds, rfl⟩ := Nat.exists_eq_add_one.mpr (Nat.zero_lt_of_lt hrounds)
  induction h generalizing rounds done with
  | last hpadded =>
      rw [readItems_succ hitem hpadded hadmitted.1 (List.mem_cons_of_mem _ hclose), if_pos rfl]
      simp
  | cons hpadded hmore ih =>
      -- The comma is not the closing byte, and the items after it have a round less.
      have hcomma : Byte.comma ≠ enclosure.close := by
        intro h
        rw [← h] at hclose
        revert hclose
        decide
      simp only [List.length_append, List.length_cons] at hrounds
      obtain ⟨rounds, rfl⟩ := Nat.exists_eq_add_one.mpr (show 0 < rounds by omega)
      rw [List.append_assoc, List.cons_append,
        readItems_succ hitem hpadded hadmitted.1 List.mem_cons_self, if_neg hcomma, if_pos rfl,
        ih hadmitted.2 rounds (by omega)]
      simp

theorem readSequence_sound
    (hitem : ∀ done, Reads (readItem done) fun text x => Led Item text x ∧ Fresh done x)
    (first : UInt8) {body rest : Bytes} {xs : List α}
    (h : readSequence enclosure opened readItem body = .ok (xs, rest)) :
    ∃ used, first :: body = used ++ rest ∧ Enclosed first enclosure.close Item used xs ∧
      Admitted Fresh [] xs := by
  unfold readSequence at h
  split at h
  · next after hafter =>
      cases h
      obtain ⟨_, blanks, hblanks, rfl⟩ :=
        skipSpaces_eq_cons_iff.mp (Bytes.after?_eq_some_iff.mp hafter)
      exact ⟨_, by simp, .empty hblanks, trivial⟩
  · obtain ⟨used, items, rfl, hseparated, hadmitted, rfl⟩ := readItems_sound hitem h
    exact ⟨_, by simp, .items hseparated, hadmitted⟩

/-- No item is taken for the end of the sequence. -/
theorem Separated.after?_close (hbegins : ∀ {text x}, Item text x → Begins text)
    (hclose : enclosure.close ∈ [Byte.closeBracket, Byte.closeBrace]) {text : Bytes}
    {xs : List α} (h : Separated Item text xs) (rest : Bytes) :
    Bytes.after? [enclosure.close] (skipSpaces (text ++ rest)) = none := by
  have hpadded : ∃ used more x, text ++ rest = used ++ more ∧ Padded Item used x := by
    cases h with
    | last hpadded => exact ⟨_, rest, _, rfl, hpadded⟩
    | cons hpadded _ => exact ⟨_, _, _, List.append_assoc _ _ _, hpadded⟩
  obtain ⟨_, more, x, htext, hbefore, hitem, hafter⟩ := hpadded
  obtain ⟨b, tail, rfl, hspace, hb⟩ := hbegins hitem
  rw [htext, List.append_assoc, List.append_assoc, skipSpaces_append hbefore, List.cons_append,
    skipSpaces_cons hspace, Bytes.after?_singleton_eq_none_iff]
  rintro ⟨⟩
  exact hb hclose

theorem readSequence_complete
    (hitem : ∀ done, Reads (readItem done) fun text x => Led Item text x ∧ Fresh done x)
    (hbegins : ∀ {text x}, Item text x → Begins text)
    (hclose : enclosure.close ∈ [Byte.closeBracket, Byte.closeBrace])
    {first : UInt8} {used : Bytes} {xs : List α}
    (h : Enclosed first enclosure.close Item used xs) (hadmitted : Admitted Fresh [] xs)
    (rest : Bytes) :
    ∃ body, used ++ rest = first :: body ∧
      ∀ opened, readSequence enclosure opened readItem body = .ok (xs, rest) := by
  have hsolid : isSpace enclosure.close = false := by
    simp only [List.mem_cons, List.not_mem_nil, or_false] at hclose
    rcases hclose with h | h <;> rw [h] <;> rfl
  cases h with
  | @empty blanks hblanks =>
      refine ⟨blanks ++ enclosure.close :: rest, by simp, fun opened => ?_⟩
      have hafter : Bytes.after? [enclosure.close] (enclosure.close :: rest) = some rest :=
        Bytes.after?_eq_some_iff.mpr rfl
      rw [readSequence, skipSpaces_append hblanks, skipSpaces_cons hsolid, hafter]
  | @items text _ hseparated =>
      refine ⟨text ++ enclosure.close :: rest, by simp, fun opened => ?_⟩
      have hlength : text.length < (text ++ enclosure.close :: rest).length + 1 := by
        simp only [List.length_append, List.length_cons]
        omega
      rw [readSequence, hseparated.after?_close hbegins hclose]
      exact readItems_complete hitem hclose rest hseparated hadmitted hlength

end Sequences

end JsonTable.Json
