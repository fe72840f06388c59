import JsonTable.DelimitedText

/-!
# Reading joined texts

Lines are cells joined by one separator and tables are lines joined by another, so
both are read by one loop: an item, and as long as the separator follows, another
item. What may follow an item has to be such that the item is not read further, and
what may follow the last item must not begin with the separator either.
-/

namespace JsonTable.DelimitedText

open Bytes

variable {α : Type}

/-- Items, at least one, with a separator between any two. -/
inductive Joined (separator : Bytes) (Item : Bytes → α → Prop) : Bytes → List α → Prop where
  | last {text : Bytes} {x : α} : Item text x → Joined separator Item text [x]
  | cons {text more : Bytes} {x : α} {xs : List α} : Item text x →
      Joined separator Item more xs → Joined separator Item (text ++ separator ++ more) (x :: xs)

/--
A reader takes a text that denotes something off the front, and finds where that
text ends if what comes next can follow it.
-/
structure Reads (Follow : Bytes → Prop) (Item : Bytes → α → Prop)
    (read : Bytes → Option (α × Bytes)) : Prop where
  sound : ∀ {text rest : Bytes} {x : α}, read text = some (x, rest) →
    ∃ used, text = used ++ rest ∧ Item used x
  complete : ∀ {used rest : Bytes} {x : α}, Item used x → Follow rest →
    read (used ++ rest) = some (x, rest)

/-- Items as long as the separator follows, in so many rounds. -/
def readItems (separator : Bytes) (readItem : Bytes → Option (α × Bytes)) :
    Nat → Bytes → Option (List α × Bytes)
  | 0, _ => none
  | rounds + 1, text => do
      let (x, rest) ← readItem text
      match after? separator rest with
      | none => return ([x], rest)
      | some more =>
          let (xs, rest) ← readItems separator readItem rounds more
          return (x :: xs, rest)

/-- Every round but the last takes a separator off the text, so there is a round for each byte. -/
def readJoined (separator : Bytes) (readItem : Bytes → Option (α × Bytes)) (text : Bytes) :
    Option (List α × Bytes) :=
  readItems separator readItem (text.length + 1) text

section Joining

variable {separator : Bytes} {Item : Bytes → α → Prop} {Follow : Bytes → Prop}
  {readItem : Bytes → Option (α × Bytes)}

theorem after?_eq_none_iff {lead text : Bytes} : after? lead text = none ↔ ¬ lead <+: text := by
  unfold after?
  rw [← List.isPrefixOf_iff_prefix]
  split
  · next hbegins => simp [hbegins]
  · next hbegins => simp [hbegins]

theorem readItems_last {rounds : Nat} {text rest : Bytes} {x : α}
    (hread : readItem text = some (x, rest)) (hrest : ¬ separator <+: rest) :
    readItems separator readItem (rounds + 1) text = some ([x], rest) := by
  simp [readItems, hread, after?_eq_none_iff.mpr hrest]

theorem readItems_cons {rounds : Nat} {text more rest : Bytes} {x : α} {xs : List α}
    (hread : readItem text = some (x, separator ++ more))
    (hmore : readItems separator readItem rounds more = some (xs, rest)) :
    readItems separator readItem (rounds + 1) text = some (x :: xs, rest) := by
  simp [readItems, hread, after?_eq_some_iff.mpr rfl, hmore]

theorem readItems_sound (hitem : Reads Follow Item readItem) {rounds : Nat} {text rest : Bytes}
    {xs : List α} (h : readItems separator readItem rounds text = some (xs, rest)) :
    ∃ used, text = used ++ rest ∧ Joined separator Item used xs := by
  induction rounds generalizing text xs with
  | zero => cases h
  | succ rounds ih =>
      simp only [readItems, Option.bind_eq_bind, Option.bind_eq_some_iff, Prod.exists] at h
      obtain ⟨x, after, hread, h⟩ := h
      obtain ⟨used, rfl, hx⟩ := hitem.sound hread
      split at h
      · cases h
        exact ⟨used, rfl, .last hx⟩
      · next more hafter =>
          simp only [Option.bind_eq_some_iff, Prod.exists] at h
          obtain ⟨xs, tail, hmore, h⟩ := h
          cases h
          obtain ⟨usedMore, rfl, hxs⟩ := ih hmore
          have hafter := after?_eq_some_iff.mp hafter
          refine ⟨used ++ separator ++ usedMore, ?_, .cons hx hxs⟩
          rw [hafter]
          simp

theorem readItems_complete (hitem : Reads Follow Item readItem) (hseparator : separator ≠ [])
    (hfollow : ∀ more, Follow (separator ++ more)) {used rest : Bytes} {xs : List α}
    (h : Joined separator Item used xs) (hrest : Follow rest) (hends : ¬ separator <+: rest)
    {rounds : Nat} (hrounds : used.length < rounds) :
    readItems separator readItem rounds (used ++ rest) = some (xs, rest) := by
  induction h generalizing rounds with
  | last hx =>
      cases rounds with
      | zero => omega
      | succ rounds => exact readItems_last (hitem.complete hx hrest) hends
  | @cons text more x xs hx _ ih =>
      have hpositive := List.length_pos_iff.mpr hseparator
      simp only [List.length_append] at hrounds
      cases rounds with
      | zero => omega
      | succ rounds =>
          have hread : readItem (text ++ separator ++ more ++ rest) =
              some (x, separator ++ (more ++ rest)) := by
            rw [List.append_assoc, List.append_assoc]
            exact hitem.complete hx (hfollow _)
          exact readItems_cons hread (ih (by omega))

/-- What may follow joined items is what may follow an item and is no separator. -/
theorem Reads.joined (hitem : Reads Follow Item readItem) (hseparator : separator ≠ [])
    (hfollow : ∀ more, Follow (separator ++ more)) :
    Reads (fun rest => Follow rest ∧ ¬ separator <+: rest) (Joined separator Item)
      (readJoined separator readItem) where
  sound h := readItems_sound hitem h
  complete {used rest _} h hrest := by
    have hrounds : used.length < (used ++ rest).length + 1 := by
      rw [List.length_append]
      omega
    exact readItems_complete hitem hseparator hfollow h hrest.1 hrest.2 hrounds

theorem joined_iff {print : α → Bytes} {P : α → Prop}
    (hitem : ∀ text x, Item text x ↔ P x ∧ text = print x) {text : Bytes} {xs : List α} :
    Joined separator Item text xs ↔
      xs ≠ [] ∧ (∀ x ∈ xs, P x) ∧ text = separator.intercalate (xs.map print) := by
  induction xs generalizing text with
  | nil =>
      constructor
      · intro h
        cases h
      · rintro ⟨hne, _⟩
        exact absurd rfl hne
  | cons x xs ih =>
      cases xs with
      | nil =>
          constructor
          · intro h
            cases h with
            | last hx => simpa using (hitem _ _).mp hx
            | cons _ hxs => cases hxs
          · rintro ⟨_, hall, rfl⟩
            exact .last ((hitem _ _).mpr ⟨hall x List.mem_cons_self, by simp⟩)
      | cons y ys =>
          rw [List.map_cons, List.map_cons, List.intercalate_cons_cons, ← List.map_cons,
            List.forall_mem_cons]
          constructor
          · intro h
            cases h with
            | cons hx hxs =>
                obtain ⟨_, hall, rfl⟩ := ih.mp hxs
                obtain ⟨hp, rfl⟩ := (hitem _ _).mp hx
                exact ⟨List.cons_ne_nil _ _, ⟨hp, hall⟩, rfl⟩
          · rintro ⟨_, ⟨hp, hall⟩, rfl⟩
            exact .cons ((hitem _ _).mpr ⟨hp, rfl⟩) (ih.mpr ⟨List.cons_ne_nil _ _, hall, rfl⟩)

theorem Joined.imp {Other : Bytes → α → Prop} (himp : ∀ text x, Item text x → Other text x)
    {text : Bytes} {xs : List α} (h : Joined separator Item text xs) :
    Joined separator Other text xs := by
  induction h with
  | last hx => exact .last (himp _ _ hx)
  | cons hx _ ih => exact .cons (himp _ _ hx) ih

theorem joined_intercalate {print : α → Bytes} {xs : List α} (hne : xs ≠ [])
    (h : ∀ x ∈ xs, Item (print x) x) :
    Joined separator Item (separator.intercalate (xs.map print)) xs := by
  have hprinted : Joined separator (fun text x => Item (print x) x ∧ text = print x)
      (separator.intercalate (xs.map print)) xs :=
    (joined_iff fun _ _ => Iff.rfl).mpr ⟨hne, h, rfl⟩
  refine hprinted.imp ?_
  rintro _ x ⟨hx, rfl⟩
  exact hx

end Joining

/-! ## Tables -/

variable {style : TextStyle}

/-- The reader of tables in a style, given a reader of cells. The empty text is the empty table. -/
def readTable (style : TextStyle) (readCell : Bytes → Option (Bytes × Bytes)) (text : Bytes) :
    Option Rows :=
  if text.isEmpty then some []
  else
    match readJoined style.lineSeparator (readJoined style.separator readCell) text with
    | some (rows, []) => some rows
    | _ => none

/-- Neither separator begins with the other. In particular neither is empty. -/
structure Apart (style : TextStyle) : Prop where
  separator_not_prefix : ¬ style.separator <+: style.lineSeparator
  lineSeparator_not_prefix : ¬ style.lineSeparator <+: style.separator

namespace Apart

theorem separator_ne_nil (h : Apart style) : style.separator ≠ [] := by
  intro hnil
  exact h.separator_not_prefix (hnil ▸ List.nil_prefix)

theorem lineSeparator_ne_nil (h : Apart style) : style.lineSeparator ≠ [] := by
  intro hnil
  exact h.lineSeparator_not_prefix (hnil ▸ List.nil_prefix)

/-- A line that ends does not go on with another cell. -/
theorem not_prefix_append (h : Apart style) (more : Bytes) :
    ¬ style.separator <+: style.lineSeparator ++ more := by
  intro hbegins
  rcases List.prefix_or_prefix_of_prefix hbegins (List.prefix_append _ more) with hp | hp
  · exact h.separator_not_prefix hp
  · exact h.lineSeparator_not_prefix hp

end Apart

/--
The reader of tables with a row at least. A text of no bytes is a row with one cell,
which is empty.
-/
def readRows (style : TextStyle) (readCell : Bytes → Option (Bytes × Bytes)) (text : Bytes) :
    Option Rows :=
  match readJoined style.lineSeparator (readJoined style.separator readCell) text with
  | some (rows, []) => some rows
  | _ => none

theorem readTable_eq_readRows {readCell : Bytes → Option (Bytes × Bytes)} {text : Bytes}
    (hne : text ≠ []) : readTable style readCell text = readRows style readCell text := by
  have hempty : text.isEmpty = false := by simpa using hne
  rw [readTable, hempty]
  rfl

section Reading

variable {Cell : Bytes → Bytes → Prop} {Follow : Bytes → Prop}
  {readCell : Bytes → Option (Bytes × Bytes)} {text : Bytes} {rows : Rows}

theorem readRows_eq_some_iff (hstyle : Apart style) (hcell : Reads Follow Cell readCell)
    (hseparator : ∀ more, Follow (style.separator ++ more))
    (hline : ∀ more, Follow (style.lineSeparator ++ more)) (hend : Follow []) :
    readRows style readCell text = some rows ↔
      Joined style.lineSeparator (Joined style.separator Cell) text rows := by
  have hrow := hcell.joined hstyle.separator_ne_nil hseparator
  have hrows := hrow.joined hstyle.lineSeparator_ne_nil
    fun more => ⟨hline more, hstyle.not_prefix_append more⟩
  constructor
  · intro h
    unfold readRows at h
    split at h
    · next read hread =>
        cases h
        obtain ⟨used, rfl, hjoined⟩ := hrows.sound hread
        rwa [List.append_nil]
    · cases h
  · intro h
    have hnil {lead : Bytes} (hlead : lead ≠ []) : ¬ lead <+: [] := by
      rwa [List.prefix_nil]
    have hread := hrows.complete h
      ⟨⟨hend, hnil hstyle.separator_ne_nil⟩, hnil hstyle.lineSeparator_ne_nil⟩
    rw [List.append_nil] at hread
    simp [readRows, hread]

theorem readTable_eq_some_iff (hstyle : Apart style) (hcell : Reads Follow Cell readCell)
    (hseparator : ∀ more, Follow (style.separator ++ more))
    (hline : ∀ more, Follow (style.lineSeparator ++ more)) (hend : Follow []) (hne : text ≠ []) :
    readTable style readCell text = some rows ↔
      Joined style.lineSeparator (Joined style.separator Cell) text rows := by
  rw [readTable_eq_readRows hne]
  exact readRows_eq_some_iff hstyle hcell hseparator hline hend

end Reading

end JsonTable.DelimitedText
