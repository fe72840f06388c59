import JsonTable.Proofs.DelimitedText.Joining

/-!
# Reading plain text back

A cell that is written as it is ends where the first separator begins. That is the
separator written after it, unless the end of the cell and the beginning of that
separator make up another one. They can do so if and only if the separator has a
border, that is, if it ends as it begins: `aa` after `a` and before nothing cannot be
told from `aa` after nothing and before `a`, though no cell holds `aa`.
-/

namespace JsonTable.DelimitedText

open Bytes

/-! ## Borders -/

/-- Nothing but the empty text and the whole text both begins and ends the text. -/
def Unbordered (text : Bytes) : Prop :=
  ∀ border, border <+: text → border <:+ text → border = [] ∨ border = text

/-- It is enough to look at the beginnings that are shorter than the text. -/
theorem unbordered_iff_forall_take {text : Bytes} :
    Unbordered text ↔ ∀ n < text.length, text.take n <:+ text → text.take n = [] := by
  constructor
  · intro h n hn hends
    refine (h _ (List.take_prefix n text) hends).resolve_right fun hwhole => ?_
    have hlength := congrArg List.length hwhole
    rw [List.length_take] at hlength
    omega
  · intro h border hbegins hends
    rw [List.prefix_iff_eq_take.mp hbegins] at hends ⊢
    by_cases hshort : border.length < text.length
    · exact Or.inl (h _ hshort hends)
    · exact Or.inr (List.take_of_length_le (Nat.le_of_not_lt hshort))

instance (text : Bytes) : Decidable (Unbordered text) :=
  decidable_of_iff _ unbordered_iff_forall_take.symm

theorem unbordered_cons {b : UInt8} {rest : Bytes} (h : b ∉ rest) : Unbordered (b :: rest) := by
  intro border hbegins hends
  cases border with
  | nil => exact Or.inl rfl
  | cons c border =>
      obtain ⟨rfl, _⟩ := List.cons_prefix_cons.mp hbegins
      rcases List.suffix_cons_iff.mp hends with heq | hrest
      · exact Or.inr heq
      · exact absurd (hrest.subset List.mem_cons_self) h

def lineEnds : List Bytes :=
  [[Byte.lineFeed], [Byte.carriageReturn, Byte.lineFeed]]

theorem unbordered_of_mem_lineEnds {lineEnd : Bytes} (h : lineEnd ∈ lineEnds) :
    Unbordered lineEnd := by
  simp only [lineEnds, List.mem_cons, List.not_mem_nil, or_false] at h
  rcases h with rfl | rfl
  · exact unbordered_cons List.not_mem_nil
  · exact unbordered_cons (by decide)

theorem ne_nil_of_mem_lineEnds {lineEnd : Bytes} (h : lineEnd ∈ lineEnds) : lineEnd ≠ [] := by
  rintro rfl
  revert h
  decide

theorem mem_of_mem_lineEnds {lineEnd : Bytes} (h : lineEnd ∈ lineEnds) :
    ∀ b ∈ lineEnd, b = Byte.carriageReturn ∨ b = Byte.lineFeed := by
  simp only [lineEnds, List.mem_cons, List.not_mem_nil, or_false] at h
  rcases h with rfl | rfl <;> simp

/-! ## One cell -/

/-- What comes before the first place where one of the stops begins, and the text from there. -/
def splitAtStop (stops : List Bytes) : Bytes → Bytes × Bytes
  | [] => ([], [])
  | b :: rest =>
      if stops.any fun stop => stop.isPrefixOf (b :: rest) then ([], b :: rest)
      else (b :: (splitAtStop stops rest).1, (splitAtStop stops rest).2)

theorem splitAtStop_append (stops : List Bytes) (text : Bytes) :
    (splitAtStop stops text).1 ++ (splitAtStop stops text).2 = text := by
  induction text with
  | nil => rfl
  | cons b rest ih =>
      rw [splitAtStop]
      split
      · rfl
      · rw [List.cons_append, ih]

theorem not_infix_splitAtStop {stops : List Bytes} {stop : Bytes} (hstop : stop ∈ stops)
    (hne : stop ≠ []) (text : Bytes) : ¬ stop <:+: (splitAtStop stops text).1 := by
  induction text with
  | nil => simpa [splitAtStop] using hne
  | cons b rest ih =>
      rw [splitAtStop]
      split
      · simpa using hne
      · next hnone =>
          rw [List.infix_cons_iff, not_or]
          refine ⟨fun hbegins => hnone ?_, ih⟩
          have hwhole : stop <+: b :: rest := by
            rw [← splitAtStop_append stops rest]
            exact hbegins.trans (List.prefix_append _ _)
          exact List.any_eq_true.mpr ⟨stop, hstop, List.isPrefixOf_iff_prefix.mpr hwhole⟩

/-- A stop that begins nowhere within `before` is not looked for there. -/
theorem splitAtStop_of_no_stop {stops : List Bytes} {before rest : Bytes}
    (h : ∀ tail, tail <:+ before → tail ≠ [] → ∀ stop ∈ stops, ¬ stop <+: tail ++ rest)
    (hrest : rest = [] ∨ ∃ stop ∈ stops, stop <+: rest) :
    splitAtStop stops (before ++ rest) = (before, rest) := by
  induction before with
  | nil =>
      cases rest with
      | nil => rfl
      | cons b rest =>
          obtain ⟨stop, hstop, hbegins⟩ := hrest.resolve_left (List.cons_ne_nil b rest)
          have hany : stops.any (fun stop => stop.isPrefixOf (b :: rest)) = true :=
            List.any_eq_true.mpr ⟨stop, hstop, List.isPrefixOf_iff_prefix.mpr hbegins⟩
          rw [List.nil_append, splitAtStop, if_pos hany]
  | cons b before ih =>
      have hnone : ¬ stops.any (fun stop => stop.isPrefixOf (b :: (before ++ rest))) = true := by
        intro hany
        obtain ⟨stop, hstop, hbegins⟩ := List.any_eq_true.mp hany
        exact h (b :: before) (List.suffix_refl _) (List.cons_ne_nil _ _) stop hstop
          (List.isPrefixOf_iff_prefix.mp hbegins)
      have hrec := ih fun tail htail => h tail (htail.trans (List.suffix_cons b before))
      rw [List.cons_append, splitAtStop, if_neg hnone, hrec]

/-- Separators that are found where they were written, as long as no cell holds one. -/
structure Clear (style : TextStyle) : Prop where
  separator_ne_nil : style.separator ≠ []
  lineSeparator_ne_nil : style.lineSeparator ≠ []
  separator_unbordered : Unbordered style.separator
  lineSeparator_unbordered : Unbordered style.lineSeparator
  disjoint : ∀ b ∈ style.separator, b ∉ style.lineSeparator

def PlainCell (style : TextStyle) (cell : Bytes) : Prop :=
  ∀ stop ∈ [style.separator, style.lineSeparator], ¬ stop <:+: cell

def EndsCell (style : TextStyle) (rest : Bytes) : Prop :=
  rest = [] ∨ ∃ stop ∈ [style.separator, style.lineSeparator], stop <+: rest

def readPlainCell (style : TextStyle) (text : Bytes) : Option (Bytes × Bytes) :=
  some (splitAtStop [style.separator, style.lineSeparator] text)

variable {style : TextStyle}

theorem mem_stops_iff {stop : Bytes} :
    stop ∈ [style.separator, style.lineSeparator] ↔
      stop = style.separator ∨ stop = style.lineSeparator := by
  simp

theorem endsCell_nil : EndsCell style [] :=
  Or.inl rfl

theorem endsCell_separator (more : Bytes) : EndsCell style (style.separator ++ more) :=
  Or.inr ⟨_, List.mem_cons_self, List.prefix_append _ _⟩

theorem endsCell_lineSeparator (more : Bytes) : EndsCell style (style.lineSeparator ++ more) :=
  Or.inr ⟨_, List.mem_cons_of_mem _ List.mem_cons_self, List.prefix_append _ _⟩

namespace Clear

theorem eq_of_mem (h : Clear style) {first second : Bytes} {b : UInt8}
    (hfirst : first ∈ [style.separator, style.lineSeparator])
    (hsecond : second ∈ [style.separator, style.lineSeparator]) (hb : b ∈ first)
    (hb' : b ∈ second) : first = second := by
  rcases mem_stops_iff.mp hfirst with rfl | rfl <;>
    rcases mem_stops_iff.mp hsecond with rfl | rfl
  · rfl
  · exact absurd hb' (h.disjoint b hb)
  · exact absurd hb (h.disjoint b hb')
  · rfl

theorem unbordered (h : Clear style) {stop : Bytes}
    (hstop : stop ∈ [style.separator, style.lineSeparator]) : Unbordered stop := by
  rcases mem_stops_iff.mp hstop with rfl | rfl
  · exact h.separator_unbordered
  · exact h.lineSeparator_unbordered

theorem ne_nil (h : Clear style) {stop : Bytes}
    (hstop : stop ∈ [style.separator, style.lineSeparator]) : stop ≠ [] := by
  rcases mem_stops_iff.mp hstop with rfl | rfl
  · exact h.separator_ne_nil
  · exact h.lineSeparator_ne_nil

theorem not_prefix (h : Clear style) {first second : Bytes}
    (hfirst : first ∈ [style.separator, style.lineSeparator])
    (hsecond : second ∈ [style.separator, style.lineSeparator]) (hne : first ≠ second) :
    ¬ first <+: second := by
  intro hbegins
  obtain ⟨b, hb⟩ := List.exists_mem_of_ne_nil first (h.ne_nil hfirst)
  exact hne (h.eq_of_mem hfirst hsecond hb (hbegins.subset hb))

theorem separator_ne_lineSeparator (h : Clear style) : style.separator ≠ style.lineSeparator := by
  intro heq
  obtain ⟨b, hb⟩ := List.exists_mem_of_ne_nil _ h.separator_ne_nil
  exact h.disjoint b hb (heq ▸ hb)

theorem apart (h : Clear style) : Apart style where
  separator_not_prefix :=
    h.not_prefix List.mem_cons_self (List.mem_cons_of_mem _ List.mem_cons_self)
      h.separator_ne_lineSeparator
  lineSeparator_not_prefix :=
    h.not_prefix (List.mem_cons_of_mem _ List.mem_cons_self) List.mem_cons_self
      h.separator_ne_lineSeparator.symm

/-- The end of a separator does not begin a separator, other than as the whole of it. -/
theorem eq_of_overlap (h : Clear style) {first second shared : Bytes}
    (hfirst : first ∈ [style.separator, style.lineSeparator])
    (hsecond : second ∈ [style.separator, style.lineSeparator]) (hne : shared ≠ [])
    (hends : shared <:+ first) (hbegins : shared <+: second ∨ second <+: shared) :
    shared = first := by
  obtain rfl : first = second := by
    rcases hbegins with hbegins | hbegins
    · obtain ⟨b, hb⟩ := List.exists_mem_of_ne_nil shared hne
      exact h.eq_of_mem hfirst hsecond (hends.subset hb) (hbegins.subset hb)
    · obtain ⟨b, hb⟩ := List.exists_mem_of_ne_nil second (h.ne_nil hsecond)
      exact h.eq_of_mem hfirst hsecond (hends.subset (hbegins.subset hb)) hb
  rcases hbegins with hbegins | hbegins
  · exact (h.unbordered hfirst shared hbegins hends).resolve_left hne
  · exact hends.eq_of_length_le hbegins.length_le

/-- No separator begins within a plain cell, not even one that what follows would complete. -/
theorem not_prefix_append (h : Clear style) {cell tail rest stop : Bytes}
    (hcell : PlainCell style cell) (hrest : EndsCell style rest) (htail : tail <:+ cell)
    (hne : tail ≠ []) (hstop : stop ∈ [style.separator, style.lineSeparator]) :
    ¬ stop <+: tail ++ rest := by
  intro hbegins
  rcases List.prefix_or_prefix_of_prefix hbegins (List.prefix_append tail rest) with hin | hover
  · exact hcell stop hstop (hin.isInfix.trans htail.isInfix)
  · obtain ⟨shared, rfl⟩ := hover
    have hshared : shared <+: rest := (List.prefix_append_right_inj tail).mp hbegins
    by_cases hnil : shared = []
    · rw [hnil, List.append_nil] at hstop
      exact hcell tail hstop htail.isInfix
    · rcases hrest with rfl | ⟨next, hnext, hnextBegins⟩
      · exact hnil (List.prefix_nil.mp hshared)
      · have hwhole := h.eq_of_overlap hstop hnext hnil (List.suffix_append tail shared)
          (List.prefix_or_prefix_of_prefix hshared hnextBegins)
        exact hne (List.self_eq_append_left.mp hwhole)

end Clear

theorem readPlainCell_reads (h : Clear style) :
    Reads (EndsCell style) (fun text cell => PlainCell style cell ∧ text = cell)
      (readPlainCell style) where
  sound {text rest cell} hread := by
    have hsplit : splitAtStop [style.separator, style.lineSeparator] text = (cell, rest) :=
      Option.some.inj hread
    have happend := splitAtStop_append [style.separator, style.lineSeparator] text
    have hplain : PlainCell style (splitAtStop [style.separator, style.lineSeparator] text).1 :=
      fun stop hstop => not_infix_splitAtStop hstop (h.ne_nil hstop) text
    rw [hsplit] at happend hplain
    exact ⟨cell, happend.symm, hplain, rfl⟩
  complete {used rest cell} hused hrest := by
    obtain ⟨hplain, rfl⟩ := hused
    exact congrArg some (splitAtStop_of_no_stop
      (fun tail htail hne stop hstop => h.not_prefix_append hplain hrest htail hne hstop) hrest)

/-! ## Tables -/

def plainText (style : TextStyle) (rows : Rows) : Bytes :=
  style.lineSeparator.intercalate (rows.map style.separator.intercalate)

theorem text_of_not_quotes {rows : Rows} (h : style.quotes rows = false) :
    style.text rows = plainText style rows := by
  rw [TextStyle.text, TextStyle.lines, h]
  rfl

theorem joined_plain_iff {text : Bytes} {rows : Rows} :
    Joined style.lineSeparator
        (Joined style.separator fun text cell => PlainCell style cell ∧ text = cell) text rows ↔
      rows ≠ [] ∧ (∀ row ∈ rows, row ≠ [] ∧ ∀ cell ∈ row, PlainCell style cell) ∧
        text = plainText style rows := by
  have hcell : ∀ text cell : Bytes,
      PlainCell style cell ∧ text = cell ↔ PlainCell style cell ∧ text = id cell :=
    fun _ _ => Iff.rfl
  refine joined_iff fun text row => ?_
  rw [joined_iff hcell, List.map_id, and_assoc]

theorem readRows_eq_some_iff_plainText (h : Clear style) {text : Bytes} {rows : Rows} :
    readRows style (readPlainCell style) text = some rows ↔
      rows ≠ [] ∧ (∀ row ∈ rows, row ≠ [] ∧ ∀ cell ∈ row, PlainCell style cell) ∧
        text = plainText style rows := by
  rw [readRows_eq_some_iff h.apart (readPlainCell_reads h) endsCell_separator
    endsCell_lineSeparator endsCell_nil, joined_plain_iff]

/-! ## Tables that need no quoting -/

theorem cellNeedsQuoting_eq_false_iff {separator cell : Bytes} :
    cellNeedsQuoting separator cell = false ↔
      (∀ b ∈ cell, b ≠ Byte.carriageReturn ∧ b ≠ Byte.lineFeed) ∧
        (separator ≠ [] → ¬ separator <:+: cell) := by
  rw [← occursIn_iff]
  simp [cellNeedsQuoting]

theorem needsQuoting_eq_false_iff {separator : Bytes} {rows : Rows} :
    needsQuoting separator rows = false ↔
      ∀ row ∈ rows, ∀ cell ∈ row, cellNeedsQuoting separator cell = false := by
  simp only [needsQuoting, List.any_eq_false, Bool.not_eq_true]

structure OneLine (style : TextStyle) : Prop where
  separator_ne_nil : style.separator ≠ []
  separator_bytes : ∀ b ∈ style.separator, b ≠ Byte.carriageReturn ∧ b ≠ Byte.lineFeed
  lineSeparator_mem : style.lineSeparator ∈ lineEnds

namespace OneLine

theorem of_not_mem (hseparator : style.separator ≠ [])
    (hreturn : Byte.carriageReturn ∉ style.separator) (hfeed : Byte.lineFeed ∉ style.separator)
    (hline : style.lineSeparator ∈ lineEnds) : OneLine style where
  separator_ne_nil := hseparator
  separator_bytes _ hb := ⟨ne_of_mem_of_not_mem hb hreturn, ne_of_mem_of_not_mem hb hfeed⟩
  lineSeparator_mem := hline

theorem clear (h : OneLine style) (hborder : Unbordered style.separator) : Clear style where
  separator_ne_nil := h.separator_ne_nil
  lineSeparator_ne_nil := ne_nil_of_mem_lineEnds h.lineSeparator_mem
  separator_unbordered := hborder
  lineSeparator_unbordered := unbordered_of_mem_lineEnds h.lineSeparator_mem
  disjoint b hb hline := by
    obtain ⟨hreturn, hfeed⟩ := h.separator_bytes b hb
    rcases mem_of_mem_lineEnds h.lineSeparator_mem b hline with heq | heq
    · exact hreturn heq
    · exact hfeed heq

theorem plainCell (h : OneLine style) {cell : Bytes}
    (hcell : cellNeedsQuoting style.separator cell = false) : PlainCell style cell := by
  obtain ⟨hbytes, hseparator⟩ := cellNeedsQuoting_eq_false_iff.mp hcell
  intro stop hstop hin
  rcases mem_stops_iff.mp hstop with rfl | rfl
  · exact hseparator h.separator_ne_nil hin
  · obtain ⟨b, hb⟩ :=
      List.exists_mem_of_ne_nil _ (ne_nil_of_mem_lineEnds h.lineSeparator_mem)
    obtain ⟨hreturn, hfeed⟩ := hbytes b (hin.subset hb)
    rcases mem_of_mem_lineEnds h.lineSeparator_mem b hb with heq | heq
    · exact hreturn heq
    · exact hfeed heq

end OneLine

/-- Written without quotes, two tables that smart quoting does not quote never have one text. -/
def PlainTextDetermines (style : TextStyle) : Prop :=
  ∀ rows rows' : Rows, rows ≠ [] → rows' ≠ [] → (∀ row ∈ rows, row ≠ []) →
    (∀ row ∈ rows', row ≠ []) → needsQuoting style.separator rows = false →
    needsQuoting style.separator rows' = false →
    { style with quoting := .never }.text rows = { style with quoting := .never }.text rows' →
    rows = rows'

theorem text_never (style : TextStyle) (rows : Rows) :
    { style with quoting := .never }.text rows = plainText style rows :=
  text_of_not_quotes rfl

/-- Smart quoting writes nothing else where it does not quote. -/
theorem text_smart_eq_text_never {rows : Rows}
    (h : needsQuoting style.separator rows = false) :
    { style with quoting := .smart }.text rows = { style with quoting := .never }.text rows := by
  rw [text_never]
  exact text_of_not_quotes h

theorem readRows_plainText (h : OneLine style) (hborder : Unbordered style.separator)
    {rows : Rows} (hne : rows ≠ []) (hrows : ∀ row ∈ rows, row ≠ [])
    (hplain : needsQuoting style.separator rows = false) :
    readRows style (readPlainCell style) (plainText style rows) = some rows := by
  refine (readRows_eq_some_iff_plainText (h.clear hborder)).mpr
    ⟨hne, fun row hrow => ⟨hrows row hrow, fun cell hcell => ?_⟩, rfl⟩
  exact h.plainCell (needsQuoting_eq_false_iff.mp hplain row hrow cell hcell)

theorem plainTextDetermines_of_unbordered (h : OneLine style)
    (hborder : Unbordered style.separator) : PlainTextDetermines style := by
  intro rows rows' hne hne' hrows hrows' hplain hplain' htext
  have hread := readRows_plainText h hborder hne hrows hplain
  have hread' := readRows_plainText h hborder hne' hrows' hplain'
  rw [text_never, text_never] at htext
  rw [htext] at hread
  exact Option.some.inj (hread.symm.trans hread')

/-- A text made of the bytes of the separator, but shorter than it, needs no quotes. -/
theorem OneLine.not_needsQuoting_of_length_lt (h : OneLine style) {cell : Bytes}
    (hbytes : cell ⊆ style.separator) (hlength : cell.length < style.separator.length) :
    cellNeedsQuoting style.separator cell = false := by
  refine cellNeedsQuoting_eq_false_iff.mpr ⟨fun b hb => h.separator_bytes b (hbytes hb), ?_⟩
  intro _ hin
  exact absurd hin.length_le (Nat.not_le_of_lt hlength)

/--
What stands before a border at the separator's end and what stands after the border at its
beginning make two tables with the same text.
-/
theorem unbordered_of_plainTextDetermines (h : OneLine style)
    (hdetermines : PlainTextDetermines style) : Unbordered style.separator := by
  intro border hbegins hends
  by_cases hnil : border = []
  · exact Or.inl hnil
  right
  obtain ⟨after, hafter⟩ := hbegins
  obtain ⟨before, hbefore⟩ := hends
  have hpositive := List.length_pos_iff.mpr hnil
  have hlengthAfter := congrArg List.length hafter
  have hlengthBefore := congrArg List.length hbefore
  rw [List.length_append] at hlengthAfter hlengthBefore
  have hshort {cell : Bytes} (hbytes : cell ⊆ style.separator)
      (hlength : cell.length + border.length = style.separator.length) :
      cellNeedsQuoting style.separator cell = false :=
    h.not_needsQuoting_of_length_lt hbytes (by omega)
  have hcellBefore : cellNeedsQuoting style.separator before = false :=
    hshort (hbefore ▸ List.subset_append_left before border) (by omega)
  have hcellAfter : cellNeedsQuoting style.separator after = false :=
    hshort (hafter ▸ List.subset_append_right border after) (by omega)
  have hcellNil : cellNeedsQuoting style.separator [] = false :=
    h.not_needsQuoting_of_length_lt (List.nil_subset _) (List.length_pos_iff.mpr h.separator_ne_nil)
  have htext : plainText style [[before, []]] = plainText style [[[], after]] := by
    have hsame : before ++ style.separator = style.separator ++ after :=
      calc
        before ++ style.separator = before ++ (border ++ after) := by rw [hafter]
        _ = before ++ border ++ after := (List.append_assoc _ _ _).symm
        _ = style.separator ++ after := by rw [hbefore]
    simpa [plainText] using hsame
  have hrows := hdetermines [[before, []]] [[[], after]] (by simp) (by simp) (by simp) (by simp)
    (by simp [needsQuoting, hcellBefore, hcellNil]) (by simp [needsQuoting, hcellAfter, hcellNil])
    (by rw [text_never, text_never, htext])
  obtain ⟨hbeforeNil, _⟩ : before = [] ∧ after = [] := by simpa using hrows
  rw [← hbefore, hbeforeNil, List.nil_append]

/--
Tables that smart quoting leaves as they are can be told apart by their texts if and
only if the separator has no border.
-/
theorem plain_text_determines_table_iff (h : OneLine style) :
    (∀ rows, needsQuoting style.separator rows = false →
      { style with quoting := .smart }.text rows = { style with quoting := .never }.text rows) ∧
    (PlainTextDetermines style ↔ Unbordered style.separator) :=
  ⟨fun _ => text_smart_eq_text_never,
    unbordered_of_plainTextDetermines h, plainTextDetermines_of_unbordered h⟩

/-- A separator may hold a byte more than once, as long as its end does not begin it again. -/
theorem plain_text_determines_table_with_long_separator :
    let style : TextStyle := { separator := ascii "aab", quoting := .never }
    OneLine style ∧ PlainTextDetermines style := by
  intro style
  have hstyle : OneLine style := .of_not_mem (by decide) (by decide) (by decide) (by decide)
  exact ⟨hstyle, (plain_text_determines_table_iff hstyle).2.mpr (by decide)⟩

/-- The cell `a` before two letters `a` is not told from the cell `a` after them. -/
theorem plain_text_hides_cells_of_bordered_separator :
    let style : TextStyle := { separator := ascii "aa", lineSeparator := [Byte.lineFeed] }
    OneLine style ∧ ¬ PlainTextDetermines style := by
  intro style
  refine ⟨.of_not_mem (by decide) (by decide) (by decide) (by decide), fun hdetermines => ?_⟩
  have hrows := hdetermines [[ascii "a", []]] [[[], ascii "a"]] (by decide) (by decide)
    (by decide) (by decide) (by decide) (by decide) (by decide)
  revert hrows
  decide

end JsonTable.DelimitedText
