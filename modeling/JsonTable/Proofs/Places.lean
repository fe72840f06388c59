import JsonTable.Proofs.Reports
import Mathlib.Data.Prod.Lex

/-!
# Places

The place of a position is found by halving the list of newlines. Going through the text from
its start gives the same place: a newline moves on to the next line, any other byte to the next
column. So a newline is the last byte of the line it ends, places come in the order of their
positions, and no two positions share one.
-/

namespace JsonTable

/-! ## Where newlines stand -/

theorem mem_newlinePositions_iff {text : Bytes} {position : Nat} :
    position ∈ newlinePositions text ↔ text[position]? = some Byte.lineFeed := by
  simp [newlinePositions, List.mem_zipIdx_iff_getElem?]

theorem lt_length_of_mem_newlinePositions {text : Bytes} {position : Nat}
    (h : position ∈ newlinePositions text) : position < text.length :=
  (List.getElem?_eq_some_iff.mp (mem_newlinePositions_iff.mp h)).1

theorem newlinePositions_pairwise (text : Bytes) :
    (newlinePositions text).Pairwise (· < ·) := by
  have hall : (text.zipIdx.map Prod.snd).Pairwise (· < ·) := by
    rw [List.zipIdx_map_snd]
    exact List.pairwise_lt_range' 1
  exact hall.sublist (List.filter_sublist.map _)

theorem length_newlinePositions (text : Bytes) :
    (newlinePositions text).length = text.count Byte.lineFeed := by
  rw [newlinePositions, List.length_map, ← List.countP_eq_length_filter, List.count_eq_countP]
  conv_rhs => rw [← List.zipIdx_map_fst 0 text, List.countP_map]
  rfl

theorem newlinePositions_append (text more : Bytes) :
    newlinePositions (text ++ more) =
      newlinePositions text ++ (newlinePositions more).map (text.length + ·) := by
  simp only [newlinePositions, List.zipIdx_append, List.filter_append, List.map_append]
  rw [@List.zipIdx_eq_map_add _ more (0 + text.length), List.filter_map]
  simp [Function.comp_def]

/-- Of the newlines of a text, those before a position are those of its first part. -/
theorem countP_newlinePositions (text : Bytes) (position : Nat) :
    (newlinePositions text).countP (· < position) = (text.take position).count Byte.lineFeed := by
  have hbefore : ∀ index ∈ newlinePositions (text.take position),
      decide (index < position) = true := by
    intro index hindex
    have hlt := lt_length_of_mem_newlinePositions hindex
    rw [List.length_take] at hlt
    exact decide_eq_true (by omega)
  have hafter : ∀ index ∈ (newlinePositions (text.drop position)).map
      ((text.take position).length + ·), ¬ decide (index < position) = true := by
    intro index hindex
    obtain ⟨offset, hoffset, rfl⟩ := List.mem_map.mp hindex
    have hlt := lt_length_of_mem_newlinePositions hoffset
    rw [List.length_drop] at hlt
    rw [List.length_take, decide_eq_true_eq]
    omega
  calc (newlinePositions text).countP (· < position)
      = (newlinePositions (text.take position ++ text.drop position)).countP (· < position) := by
        rw [List.take_append_drop]
    _ = (newlinePositions (text.take position)).length := by
        rw [newlinePositions_append, List.countP_append, List.countP_eq_length.mpr hbefore,
          List.countP_eq_zero.mpr hafter, Nat.add_zero]
    _ = (text.take position).count Byte.lineFeed := length_newlinePositions _

/-! ## Where lines begin -/

/--
The line of a position begins just past the last newline strictly before the position, or at
the start of the text if there is none.
-/
structure BeginsLine (text : Bytes) (position start : Nat) : Prop where
  first : start = 0 ∨
    ∃ newline < position, start = newline + 1 ∧ text[newline]? = some Byte.lineFeed
  unbroken : ∀ index, start ≤ index → index < position → text[index]? ≠ some Byte.lineFeed

namespace BeginsLine

variable {text : Bytes} {position start other : Nat}

theorem le_position (h : BeginsLine text position start) : start ≤ position := by
  cases h.first with
  | inl hzero => omega
  | inr hnewline =>
      obtain ⟨newline, hlt, rfl, _⟩ := hnewline
      omega

theorem le_of_newline (h : BeginsLine text position start) {newline : Nat}
    (hlt : newline < position) (hnewline : text[newline]? = some Byte.lineFeed) :
    newline + 1 ≤ start := by
  by_cases hle : start ≤ newline
  · exact absurd hnewline (h.unbroken newline hle hlt)
  · omega

/-- One newline before the position is the last one. -/
theorem unique (h : BeginsLine text position start) (hother : BeginsLine text position other) :
    start = other := by
  have hle {a b : Nat} (ha : BeginsLine text position a) (hb : BeginsLine text position b) :
      a ≤ b := by
    cases ha.first with
    | inl hzero => omega
    | inr hnewline =>
        obtain ⟨newline, hlt, rfl, hnewline⟩ := hnewline
        exact hb.le_of_newline hlt hnewline
  exact Nat.le_antisymm (hle h hother) (hle hother h)

theorem after_newline (h : text[position]? = some Byte.lineFeed) :
    BeginsLine text (position + 1) (position + 1) where
  first := Or.inr ⟨position, Nat.lt_succ_self position, rfl, h⟩
  unbroken index hle hlt := by omega

theorem after_other (h : BeginsLine text position start)
    (hbyte : text[position]? ≠ some Byte.lineFeed) : BeginsLine text (position + 1) start where
  first := by
    cases h.first with
    | inl hzero => exact Or.inl hzero
    | inr hnewline =>
        obtain ⟨newline, hlt, hnewline⟩ := hnewline
        exact Or.inr ⟨newline, by omega, hnewline⟩
  unbroken index hle hlt := by
    by_cases heq : index = position
    · exact heq ▸ hbyte
    · exact h.unbroken index hle (by omega)

end BeginsLine

namespace Source

variable {source : Source} {position : Nat}

theorem newlines_ordered (source : Source) (position : Nat) :
    source.newlines.toList.Pairwise fun a b =>
      decide (b < position) = true → decide (a < position) = true := by
  rw [source.newlines_eq]
  refine (newlinePositions_pairwise source.bytes).imp fun {a b} hlt hb => ?_
  exact decide_eq_true (Nat.lt_trans hlt (of_decide_eq_true hb))

theorem newlines_mono {first second : Nat} (hle : first ≤ second)
    (h : second < source.newlines.size) : source.newlines[first] ≤ source.newlines[second] := by
  cases Nat.eq_or_lt_of_le hle with
  | inl heq => exact Nat.le_of_eq (getElem_congr_idx heq)
  | inr hlt =>
      have hsorted := newlinePositions_pairwise source.bytes
      rw [← source.newlines_eq] at hsorted
      exact Nat.le_of_lt (List.pairwise_iff_getElem.mp hsorted first second
        (by rw [Array.length_toList]; omega) (by rwa [Array.length_toList]) hlt)

theorem newlinesBefore_le (source : Source) (position : Nat) :
    source.newlinesBefore position ≤ source.newlines.size :=
  lowerBound_le _ (Nat.zero_le _)

/-- Halving tells the newlines before a position from those that are not. -/
theorem lt_newlinesBefore_iff {index : Nat} (h : index < source.newlines.size) :
    index < source.newlinesBefore position ↔ source.newlines[index] < position := by
  rw [newlinesBefore, lt_lowerBound_iff (source.newlines_ordered position) h, decide_eq_true_eq]

theorem newlinesBefore_eq_count (source : Source) (position : Nat) :
    source.newlinesBefore position = (source.bytes.take position).count Byte.lineFeed := by
  rw [newlinesBefore, lowerBound_eq_countP (source.newlines_ordered position),
    source.newlines_eq, countP_newlinePositions]

theorem getElem?_newline {index : Nat} (h : index < source.newlines.size) :
    source.bytes[source.newlines[index]]? = some Byte.lineFeed := by
  rw [← mem_newlinePositions_iff, ← source.newlines_eq, Array.mem_toList_iff]
  exact Array.getElem_mem h

/-- A newline before the position is among those counted. -/
theorem exists_newline_counted {newline : Nat} (hlt : newline < position)
    (h : source.bytes[newline]? = some Byte.lineFeed) :
    ∃ index, ∃ hindex : index < source.newlines.size,
      source.newlines[index] = newline ∧ index < source.newlinesBefore position := by
  rw [← mem_newlinePositions_iff, ← source.newlines_eq, Array.mem_toList_iff] at h
  obtain ⟨index, hindex, rfl⟩ := Array.mem_iff_getElem.mp h
  exact ⟨index, hindex, rfl, (lt_newlinesBefore_iff hindex).mpr hlt⟩

/-- What halving finds is the beginning of the line, for positions past the end as well. -/
theorem lineStart_begins (source : Source) (position : Nat) :
    BeginsLine source.bytes position (source.lineStart position) := by
  have hfits := source.newlinesBefore_le position
  unfold lineStart
  cases hcount : source.newlinesBefore position with
  | zero =>
      refine ⟨Or.inl rfl, fun newline _ hlt hnewline => ?_⟩
      obtain ⟨index, _, _, hcounted⟩ := exists_newline_counted hlt hnewline
      omega
  | succ n =>
      have hn : n < source.newlines.size := by omega
      have hlast : source.newlines[n] < position := (lt_newlinesBefore_iff hn).mp (by omega)
      have hget : source.newlines.getD n 0 = source.newlines[n] := by
        rw [Array.getD, dif_pos hn, Array.getInternal_eq_getElem]
      simp only [hget]
      refine ⟨Or.inr ⟨_, hlast, rfl, getElem?_newline hn⟩, fun newline hle hlt hnewline => ?_⟩
      -- Another newline before the position is counted too, and none of these is after the last.
      obtain ⟨index, hindex, rfl, hcounted⟩ := exists_newline_counted hlt hnewline
      have hlater := newlines_mono (show index ≤ n by omega) hn
      omega

theorem lineStart_le_size (source : Source) (position : Nat) :
    source.lineStart position ≤ source.size := by
  cases (source.lineStart_begins position).first with
  | inl hzero => exact hzero ▸ Nat.zero_le _
  | inr hnewline =>
      obtain ⟨newline, _, hstart, hnewline⟩ := hnewline
      rw [hstart]
      exact lt_size_of_getElem? hnewline

end Source

/-! ## Going through a text -/

namespace Place

def next (place : Place) (b : UInt8) : Place :=
  if b = Byte.lineFeed then ⟨place.line + 1, 1⟩ else ⟨place.line, place.column + 1⟩

def after (text : Bytes) : Place :=
  text.foldl next ⟨1, 1⟩

/-- Places are in the order of a text: by line, and by column within a line. -/
instance : LinearOrder Place :=
  LinearOrder.lift' (fun place => toLex (place.line, place.column)) fun ⟨_, _⟩ ⟨_, _⟩ h => by
    obtain ⟨rfl, rfl⟩ := Prod.mk.inj (toLex_inj.mp h)
    rfl

theorem lt_iff {p q : Place} :
    p < q ↔ p.line < q.line ∨ p.line = q.line ∧ p.column < q.column :=
  Prod.Lex.toLex_lt_toLex

theorem lt_next (p : Place) (b : UInt8) : p < p.next b := by
  rw [lt_iff, next]
  by_cases hb : b = Byte.lineFeed
  · rw [if_pos hb]
    exact Or.inl (Nat.lt_succ_self p.line)
  · rw [if_neg hb]
    exact Or.inr ⟨rfl, Nat.lt_succ_self p.column⟩

theorem le_foldl_next (p : Place) (text : Bytes) : p ≤ text.foldl next p := by
  induction text generalizing p with
  | nil => exact le_refl p
  | cons b text ih => exact le_trans (le_of_lt (p.lt_next b)) (ih (p.next b))

theorem after_lt_append (text : Bytes) {more : Bytes} (h : more ≠ []) :
    after text < after (text ++ more) := by
  obtain ⟨b, more, rfl⟩ := List.exists_cons_of_ne_nil h
  rw [after, after, List.foldl_append, List.foldl_cons]
  exact lt_of_lt_of_le (lt_next _ b) (le_foldl_next _ more)

end Place

namespace Source

variable {source : Source} {position first second : Nat} {b : UInt8} {p : Place}

theorem newlinesBefore_succ (h : source.bytes[position]? = some b) :
    source.newlinesBefore (position + 1) =
      source.newlinesBefore position + if b = Byte.lineFeed then 1 else 0 := by
  simp only [newlinesBefore_eq_count, List.take_add_one, h, List.count_append]
  simp [List.count_singleton]

theorem lineStart_succ (h : source.bytes[position]? = some b) :
    source.lineStart (position + 1) =
      if b = Byte.lineFeed then position + 1 else source.lineStart position := by
  refine (source.lineStart_begins (position + 1)).unique ?_
  by_cases hb : b = Byte.lineFeed
  · rw [if_pos hb]
    exact .after_newline (hb ▸ h)
  · rw [if_neg hb]
    refine (source.lineStart_begins position).after_other fun hnewline => hb ?_
    exact Option.some.inj (h.symm.trans hnewline)

/-- The place of the next position is one step on, by the byte that stands between. -/
theorem place_succ (hplace : source.place position = .ok p)
    (h : source.bytes[position]? = some b) : source.place (position + 1) = .ok (p.next b) := by
  have hlt := lt_size_of_getElem? h
  have hstart := (source.lineStart_begins position).le_position
  rw [place, if_pos (Nat.le_of_lt hlt)] at hplace
  cases hplace
  rw [place, if_pos (Nat.succ_le_of_lt hlt), newlinesBefore_succ h, lineStart_succ h, Place.next]
  by_cases hb : b = Byte.lineFeed
  · have hcolumn : position + 1 + 1 - (position + 1) = 1 := by omega
    simp only [if_pos hb, hcolumn]
  · have hcolumn : position + 1 + 1 - source.lineStart position =
        position + 1 - source.lineStart position + 1 := by omega
    simp only [if_neg hb, hcolumn, Nat.add_zero]

/-- Halving finds the place that is found by going through the bytes before a position. -/
theorem place_eq_after (h : position ≤ source.size) :
    source.place position = .ok (Place.after (source.bytes.take position)) := by
  induction position with
  | zero =>
      have hstart : source.lineStart 0 = 0 :=
        Nat.le_zero.mp (source.lineStart_begins 0).le_position
      rw [place, if_pos h, newlinesBefore_eq_count, hstart]
      rfl
  | succ position ih =>
      have hlt : position < source.bytes.length := source.size_eq ▸ h
      have hbyte : source.bytes[position]? = some source.bytes[position] :=
        List.getElem?_eq_getElem hlt
      rw [place_succ (ih (Nat.le_of_succ_le h)) hbyte, List.take_add_one, hbyte,
        Place.after, Place.after, List.foldl_append]
      rfl

theorem place_past_end (h : source.size < position) :
    source.place position = .error (.placeOutOfRange position) := by
  rw [place, if_neg (Nat.not_le_of_lt h)]

theorem le_size_of_place (h : source.place position = .ok p) : position ≤ source.size := by
  by_cases hle : position ≤ source.size
  · exact hle
  · rw [place_past_end (Nat.lt_of_not_le hle)] at h
    cases h

theorem place_lt {q : Place} (hlt : first < second) (hp : source.place first = .ok p)
    (hq : source.place second = .ok q) : p < q := by
  have hle := le_size_of_place hq
  have hparts : source.bytes.take second =
      source.bytes.take first ++ (source.bytes.drop first).take (second - first) := by
    rw [← List.take_add, Nat.add_sub_cancel' (Nat.le_of_lt hlt)]
  have hmore : (source.bytes.drop first).take (second - first) ≠ [] := by
    refine List.ne_nil_of_length_pos ?_
    rw [size_eq] at hle
    rw [List.length_take, List.length_drop]
    omega
  rw [place_eq_after (le_size_of_place hp)] at hp
  rw [place_eq_after hle, hparts] at hq
  cases hp
  cases hq
  exact Place.after_lt_append _ hmore

theorem place_le {q : Place} (hle : first ≤ second) (hp : source.place first = .ok p)
    (hq : source.place second = .ok q) : p ≤ q := by
  cases Nat.eq_or_lt_of_le hle with
  | inl heq =>
      subst heq
      exact le_of_eq (Except.ok.inj (hp.symm.trans hq))
  | inr hlt => exact le_of_lt (place_lt hlt hp hq)

theorem place_inj (hfirst : source.place first = .ok p) (hsecond : source.place second = .ok p) :
    first = second := by
  rcases Nat.lt_trichotomy first second with hlt | heq | hlt
  · exact absurd (place_lt hlt hfirst hsecond) (lt_irrefl p)
  · exact heq
  · exact absurd (place_lt hlt hsecond hfirst) (lt_irrefl p)

/--
Halving finds where the line of a position begins, also beyond the end of the text, and up to
the end it finds the place that is found by going through the bytes before the position: the
line counts the newlines among them, the column the bytes of the line. A newline is on the line
that it ends. Later positions have later places, so that none is shared; past the end there are
no places.
-/
theorem halving_agrees_with_going_through (source : Source) :
    (∀ position, BeginsLine source.bytes position (source.lineStart position)) ∧
    (∀ position ≤ source.size,
      source.place position = .ok (Place.after (source.bytes.take position)) ∧
      source.place position = .ok ⟨1 + (source.bytes.take position).count Byte.lineFeed,
        1 + position - source.lineStart position⟩) ∧
    (∀ position b, source.bytes[position]? = some b →
      ∃ p, source.place position = .ok p ∧ source.place (position + 1) = .ok (p.next b)) ∧
    (∀ first second, first < second → second ≤ source.size →
      ∃ p q, source.place first = .ok p ∧ source.place second = .ok q ∧ p < q) ∧
    (∀ first second p, source.place first = .ok p → source.place second = .ok p →
      first = second) ∧
    ∀ position, source.size < position →
      source.place position = .error (.placeOutOfRange position) := by
  refine ⟨source.lineStart_begins, fun position h => ⟨place_eq_after h, ?_⟩, ?_, ?_,
    fun _ _ _ => place_inj, fun _ => place_past_end⟩
  · rw [place, if_pos h, newlinesBefore_eq_count, Nat.add_comm 1, Nat.add_comm 1]
  · intro position b hb
    have hlt := lt_size_of_getElem? hb
    obtain ⟨p, hp⟩ := exists_place (Nat.le_of_lt hlt)
    exact ⟨p, hp, place_succ hp hb⟩
  · intro first second hlt hle
    obtain ⟨p, hp⟩ := exists_place (Nat.le_trans (Nat.le_of_lt hlt) hle)
    obtain ⟨q, hq⟩ := exists_place hle
    exact ⟨p, q, hp, hq, place_lt hlt hp hq⟩

/-- Two empty lines, a line that its newline ends, and nothing after it. -/
theorem halving_agrees_with_going_through_around_newlines :
    let source := ofBytes (Bytes.ascii "\n\nab\n")
    source.lineStart 9 = 5 ∧
    source.place 4 = .ok ⟨3, 3⟩ ∧ source.place 5 = .ok ⟨4, 1⟩ ∧
    (∃ p q, source.place 1 = .ok p ∧ source.place 4 = .ok q ∧ p < q) ∧
    (∀ position, source.place position = .ok ⟨4, 1⟩ → position = 5) ∧
    source.place 6 = .error (.placeOutOfRange 6) := by
  intro source
  obtain ⟨hstart, hplace, hnext, hlater, hinj, hpast⟩ := halving_agrees_with_going_through source
  have hend : BeginsLine source.bytes 9 5 :=
    ⟨Or.inr ⟨4, by decide, rfl, rfl⟩, fun index hle _ => by
      rw [List.getElem?_eq_none hle]
      nofun⟩
  have hnewline : source.place 4 = .ok ⟨3, 3⟩ := (hplace 4 (by decide)).1
  obtain ⟨p, hp, hafter⟩ := hnext 4 Byte.lineFeed rfl
  cases hp.symm.trans hnewline
  exact ⟨(hstart 9).unique hend, hnewline, hafter, hlater 1 4 (by decide) (by decide),
    fun position hposition => hinj position 5 _ hposition hafter, hpast 6 (by decide)⟩

end Source

end JsonTable
