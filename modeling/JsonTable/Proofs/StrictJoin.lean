import JsonTable.Proofs.Duplicates
import JsonTable.Proofs.EquiJoin

/-!
# Strict joins

The strict join goes through either table once and stops at the first row that has no key
or repeats one. If there is none, no row has more than one partner, and the join holds the
rows of the multi-join in the order of the right rows. Every row is then either joined or
kept apart.
-/

namespace JsonTable

open Bytes

structure UniqueKeys (field : Nat) (rows : Rows) : Prop where
  hasField : HasField field rows
  nodup : (keysOf field rows).Nodup

/-- What is wrong with a row that comes after others: it has no key, or one that they have. -/
inductive Offends (side : Side) (field : Nat) (before : Rows) (row : Row) : KeyFailure → Prop where
  | short : row.length ≤ field →
      Offends side field before row (.shortRow side before.length row.length field)
  | repeated {earlier : Row} {key : Bytes} : earlier ∈ before → earlier[field]? = some key →
      row[field]? = some key → Offends side field before row (.repeatedKey side field key)

/-- The failure is about the first row of a table that has no key or repeats one. -/
def FirstOffence (side : Side) (field : Nat) (rows : Rows) (failure : KeyFailure) : Prop :=
  ∃ before row after, rows = before ++ row :: after ∧ UniqueKeys field before ∧
    Offends side field before row failure

def joinByRight (left : Rows) (leftField : Nat) (right : Rows) (rightField : Nat) : Rows :=
  right.flatMap fun r =>
    (partners leftField left rightField r).map fun l => besideKey rightField l r

/-! ## One row after others -/

section Keys

variable {side : Side} {field : Nat} {before rows : Rows} {row : Row} {failure : KeyFailure}

theorem uniqueKeys_nil (field : Nat) : UniqueKeys field [] :=
  ⟨hasField_nil, List.nodup_nil⟩

theorem keysOf_concat {key : Bytes} (hkey : row[field]? = some key) (before : Rows) :
    keysOf field (before ++ [row]) = keysOf field before ++ [key] := by
  simp [keysOf, hkey]

theorem mem_keysOf_iff {key : Bytes} :
    key ∈ keysOf field rows ↔ ∃ row ∈ rows, row[field]? = some key :=
  List.mem_filterMap

theorem uniqueKeys_concat_iff :
    UniqueKeys field (before ++ [row]) ↔
      UniqueKeys field before ∧ ∃ key, row[field]? = some key ∧ key ∉ keysOf field before := by
  constructor
  · rintro ⟨hfield, hnodup⟩
    have hbefore : HasField field before := fun r hr => hfield r (List.mem_append_left _ hr)
    obtain ⟨key, hkey⟩ := hfield.exists_key (List.mem_append_right _ List.mem_cons_self)
    rw [keysOf_concat hkey, List.nodup_append] at hnodup
    obtain ⟨hnodup, _, hdisjoint⟩ := hnodup
    exact ⟨⟨hbefore, hnodup⟩, key, hkey, fun hmem =>
      hdisjoint key hmem key List.mem_cons_self rfl⟩
  · rintro ⟨⟨hfield, hnodup⟩, key, hkey, hnew⟩
    constructor
    · intro r hr
      rcases List.mem_append.mp hr with hr | hr
      · exact hfield r hr
      · rw [List.mem_singleton.mp hr]
        exact (List.getElem?_eq_some_iff.mp hkey).1
    · rw [keysOf_concat hkey, (List.perm_append_singleton key _).nodup_iff, List.nodup_cons]
      exact ⟨hnew, hnodup⟩

theorem offends_or_new (side : Side) (field : Nat) (before : Rows) (row : Row) :
    (∃ failure, Offends side field before row failure) ∨
      ∃ key, row[field]? = some key ∧ key ∉ keysOf field before := by
  cases hkey : row[field]? with
  | none => exact Or.inl ⟨_, .short (List.getElem?_eq_none_iff.mp hkey)⟩
  | some key =>
      by_cases hmem : key ∈ keysOf field before
      · obtain ⟨earlier, hearlier, hsame⟩ := mem_keysOf_iff.mp hmem
        exact Or.inl ⟨_, .repeated hearlier hsame hkey⟩
      · exact Or.inr ⟨key, rfl, hmem⟩

theorem uniqueKeys_or_firstOffence (side : Side) (field : Nat) (rows : Rows) :
    UniqueKeys field rows ∨ ∃ failure, FirstOffence side field rows failure := by
  induction rows using List.reverseRecOn with
  | nil => exact Or.inl (uniqueKeys_nil field)
  | append_singleton rows row ih =>
      rcases ih with hunique | ⟨failure, before, first, after, rfl, hunique, hoffends⟩
      · rcases offends_or_new side field rows row with ⟨failure, hoffends⟩ | hnew
        · exact Or.inr ⟨failure, rows, row, [], rfl, hunique, hoffends⟩
        · exact Or.inl (uniqueKeys_concat_iff.mpr ⟨hunique, hnew⟩)
      · refine Or.inr ⟨failure, before, first, after ++ [row], ?_, hunique, hoffends⟩
        rw [List.append_assoc, List.cons_append]

/-! ## Going through the rows -/

/-- The keys that were seen are those of the rows before, of which there are as many as the index. -/
theorem keyRowsUniquely_of_offends (h : Offends side field before row failure) (after : Rows) :
    keyRowsUniquely side field (keysOf field before).reverse before.length (row :: after) =
      .error failure := by
  rw [keyRowsUniquely]
  cases h with
  | short hlength =>
      rw [rowKey, List.getElem?_eq_none hlength]
      rfl
  | @repeated earlier key hearlier hsame hkey =>
      have hseen : (keysOf field before).reverse.contains key = true := by
        rw [List.contains_iff_mem, List.mem_reverse]
        exact mem_keysOf_iff.mpr ⟨earlier, hearlier, hsame⟩
      simp only [rowKey, hkey, bind, Except.bind, hseen]
      rfl

theorem keyRowsUniquely_of_new {key : Bytes} (hkey : row[field]? = some key)
    (hnew : key ∉ keysOf field before) (after : Rows) :
    keyRowsUniquely side field (keysOf field before).reverse before.length (row :: after) =
      (keyRowsUniquely side field (keysOf field (before ++ [row])).reverse
        (before ++ [row]).length after).map ((key, row) :: ·) := by
  have hunseen : (keysOf field before).reverse.contains key = false := by
    rw [Bool.eq_false_iff, ne_eq, List.contains_iff_mem, List.mem_reverse]
    exact hnew
  rw [keyRowsUniquely, keysOf_concat hkey, List.reverse_concat, List.length_append,
    List.length_singleton]
  simp only [rowKey, hkey, bind, Except.bind, hunseen]
  rfl

theorem UniqueKeys.of_append {more : Rows} (h : UniqueKeys field (before ++ more)) :
    UniqueKeys field before := by
  induction more using List.reverseRecOn with
  | nil => rwa [List.append_nil] at h
  | append_singleton more row ih =>
      rw [← List.append_assoc] at h
      exact ih (uniqueKeys_concat_iff.mp h).1

/-- The next of several rows with unique keys has a key that none before it has. -/
theorem UniqueKeys.exists_new {after : Rows} (h : UniqueKeys field (before ++ row :: after)) :
    ∃ key, row[field]? = some key ∧ key ∉ keysOf field before := by
  rw [List.append_cons] at h
  exact (uniqueKeys_concat_iff.mp h.of_append).2

theorem keyRowsUniquely_of_uniqueKeys (before : Rows) (h : UniqueKeys field (before ++ rows)) :
    keyRowsUniquely side field (keysOf field before).reverse before.length rows =
      .ok (withKeys field rows) := by
  induction rows generalizing before with
  | nil => rfl
  | cons row rows ih =>
      obtain ⟨key, hkey, hnew⟩ := h.exists_new
      rw [List.append_cons] at h
      obtain ⟨hlength, rfl⟩ := List.getElem?_eq_some_iff.mp hkey
      rw [keyRowsUniquely_of_new hkey hnew, ih _ h, withKeys_cons hlength]
      rfl

theorem keyRowsUniquely_of_firstOffence (before : Rows) {more after : Rows}
    (h : UniqueKeys field (before ++ more))
    (hoffends : Offends side field (before ++ more) row failure) :
    keyRowsUniquely side field (keysOf field before).reverse before.length
      (more ++ row :: after) = .error failure := by
  induction more generalizing before with
  | nil =>
      rw [List.append_nil] at hoffends
      exact keyRowsUniquely_of_offends hoffends after
  | cons next more ih =>
      obtain ⟨key, hkey, hnew⟩ := h.exists_new
      rw [List.append_cons] at h hoffends
      rw [List.cons_append, keyRowsUniquely_of_new hkey hnew, ih _ h hoffends]
      rfl

theorem keyRowsUniquely_eq_error_iff :
    keyRowsUniquely side field [] 0 rows = .error failure ↔
      FirstOffence side field rows failure := by
  have hmake {failure : KeyFailure} (h : FirstOffence side field rows failure) :
      keyRowsUniquely side field [] 0 rows = .error failure := by
    obtain ⟨more, row, after, rfl, hunique, hoffends⟩ := h
    exact keyRowsUniquely_of_firstOffence [] hunique hoffends
  constructor
  · intro h
    rcases uniqueKeys_or_firstOffence side field rows with hunique | ⟨other, hother⟩
    · have hok : keyRowsUniquely side field [] 0 rows = .ok (withKeys field rows) :=
        keyRowsUniquely_of_uniqueKeys [] hunique
      cases hok.symm.trans h
    · cases (hmake hother).symm.trans h
      exact hother
  · exact hmake

theorem keyRowsUniquely_eq_ok_iff {keyed : Keyed Row} :
    keyRowsUniquely side field [] 0 rows = .ok keyed ↔
      UniqueKeys field rows ∧ keyed = withKeys field rows := by
  have hmake (h : UniqueKeys field rows) :
      keyRowsUniquely side field [] 0 rows = .ok (withKeys field rows) :=
    keyRowsUniquely_of_uniqueKeys [] h
  constructor
  · intro h
    rcases uniqueKeys_or_firstOffence side field rows with hunique | ⟨failure, hoffence⟩
    · cases (hmake hunique).symm.trans h
      exact ⟨hunique, rfl⟩
    · cases (keyRowsUniquely_eq_error_iff.mpr hoffence).symm.trans h
  · rintro ⟨hunique, rfl⟩
    exact hmake hunique

end Keys

/-! ## Rows with one partner at most -/

section Partners

variable {left right : Rows} {leftField rightField : Nat}

theorem lookup_withKeys (field : Nat) (rows : Rows) (key : Bytes) :
    (withKeys field rows).lookup key = (rowsWith field key rows).head? := by
  induction rows with
  | nil => rfl
  | cons row rows ih =>
      rw [withKeys, List.filterMap_cons, ← withKeys, rowsWith, List.filter_cons, ← rowsWith]
      cases hkey : row[field]? with
      | none => simpa using ih
      | some other =>
          by_cases h : other = key
          · simp [h]
          · simpa [h, List.lookup_cons, beq_false_of_ne (Ne.symm h)] using ih

theorem hasKey_groupRows_withKeys (field : Nat) (rows : Rows) (key : Bytes) :
    hasKey (groupRows (withKeys field rows)) key = hasKey (withKeys field rows) key := by
  rw [hasKey, hasKey, lookup_groupRows_withKeys, lookup_withKeys]
  cases rowsWith field key rows <;> simp

theorem rowsWithout_withKeys (h : HasField leftField left) :
    rowsWithout (withKeys rightField right) (withKeys leftField left) =
      left.filter fun l => (partners rightField right leftField l).isEmpty := by
  rw [← rowsWithout_groups h]
  simp only [rowsWithout, hasKey_groupRows_withKeys]

theorem UniqueKeys.length_rowsWith_le {field : Nat} {rows : Rows} (h : UniqueKeys field rows)
    (key : Bytes) : (rowsWith field key rows).length ≤ 1 := by
  rw [length_rowsWith]
  exact List.nodup_iff_count_le_one.mp h.nodup key

theorem UniqueKeys.length_partners_le (hright : UniqueKeys rightField right)
    (hleft : HasField leftField left) {l : Row} (hl : l ∈ left) :
    (partners rightField right leftField l).length ≤ 1 := by
  obtain ⟨key, hkey⟩ := hleft.exists_key hl
  rw [← rowsWith_eq_partners hkey]
  exact hright.length_rowsWith_le key

theorem toList_head? {α : Type} {as : List α} (h : as.length ≤ 1) : as.head?.toList = as := by
  match as with
  | [] => rfl
  | [a] => rfl

/-- Every row is joined with one partner, or it is kept apart. -/
theorem length_flatMap_add_length_filter {α β : Type} {f : α → List β} {as : List α}
    (h : ∀ a ∈ as, (f a).length ≤ 1) :
    (as.flatMap f).length + (as.filter fun a => (f a).isEmpty).length = as.length := by
  induction as with
  | nil => rfl
  | cons a as ih =>
      obtain ⟨ha, has⟩ := List.forall_mem_cons.mp h
      have hrest := ih has
      rw [List.flatMap_cons, List.length_append, List.filter_cons, List.length_cons]
      match hf : f a, ha with
      | [], _ =>
          simp only [List.isEmpty_nil, if_true, List.length_cons, List.length_nil]
          omega
      | [b], _ =>
          simp only [List.isEmpty_cons, Bool.false_eq_true, if_false, List.length_singleton]
          omega

/-- The one row found under the key of a right row is its one partner. -/
theorem filterMap_lookup_withKeys (hleft : UniqueKeys leftField left)
    (hright : HasField rightField right) :
    ((withKeys rightField right).filterMap fun entry =>
      ((withKeys leftField left).lookup entry.1).map fun row => joinRow rightField row entry.2) =
        joinByRight left leftField right rightField := by
  simp only [lookup_withKeys]
  rw [withKeys, List.filterMap_filterMap, List.filterMap_eq_flatMap_toList, joinByRight]
  refine List.flatMap_congr fun r hr => ?_
  obtain ⟨key, hkey⟩ := hright.exists_key hr
  have hpartners : rowsWith leftField key left = partners leftField left rightField r :=
    rowsWith_eq_partners hkey
  rw [hkey, Option.map_some, Option.bind_some, Option.toList_map,
    toList_head? (hleft.length_rowsWith_le key), hpartners]
  exact List.map_congr_left fun l _ => joinRow_eq_besideKey l r

theorem strictJoin_eq_ok_iff {joined : Joined} :
    strictJoin left leftField right rightField = .ok joined ↔
      UniqueKeys leftField left ∧ UniqueKeys rightField right ∧
        joined = { equiJoin left leftField right rightField with
          combined := joinByRight left leftField right rightField } := by
  simp only [strictJoin, except_bind_eq_ok, keyRowsUniquely_eq_ok_iff]
  have hjoined (hleft : UniqueKeys leftField left) (hright : UniqueKeys rightField right) :
      (Joined.mk
        ((withKeys rightField right).filterMap fun entry =>
          ((withKeys leftField left).lookup entry.1).map fun row =>
            joinRow rightField row entry.2)
        (rowsWithout (withKeys rightField right) (withKeys leftField left))
        (rowsWithout (withKeys leftField left) (withKeys rightField right))) =
      { equiJoin left leftField right rightField with
        combined := joinByRight left leftField right rightField } := by
    rw [filterMap_lookup_withKeys hleft hright.hasField, rowsWithout_withKeys hleft.hasField,
      rowsWithout_withKeys hright.hasField, equiJoin]
  constructor
  · rintro ⟨_, ⟨hleft, rfl⟩, _, ⟨hright, rfl⟩, h⟩
    cases h
    exact ⟨hleft, hright, hjoined hleft hright⟩
  · rintro ⟨hleft, hright, rfl⟩
    exact ⟨_, ⟨hleft, rfl⟩, _, ⟨hright, rfl⟩, congrArg Except.ok (hjoined hleft hright)⟩

theorem strictJoin_eq_error_iff {failure : KeyFailure} :
    strictJoin left leftField right rightField = .error failure ↔
      FirstOffence .left leftField left failure ∨
        UniqueKeys leftField left ∧ FirstOffence .right rightField right failure := by
  rw [strictJoin]
  simp only [except_bind_eq_error, keyRowsUniquely_eq_error_iff, keyRowsUniquely_eq_ok_iff]
  simp [pure, Except.pure]

/-- Each row of either table is joined once or kept apart. -/
theorem length_joinByRight (hleft : UniqueKeys leftField left)
    (hright : UniqueKeys rightField right) :
    (joinByRight left leftField right rightField).length +
        (equiJoin left leftField right rightField).onlyLeft.length = left.length ∧
      (joinByRight left leftField right rightField).length +
        (equiJoin left leftField right rightField).onlyRight.length = right.length := by
  constructor
  · have hleftLoop : (joinByRight left leftField right rightField).Perm
        (left.flatMap fun l =>
          (partners rightField right leftField l).map (besideKey rightField l)) :=
      (combined_perm_right hleft.hasField).symm.trans (combined_perm_left hleft.hasField)
    have hpairs : ∀ l ∈ left,
        ((partners rightField right leftField l).map (besideKey rightField l)).length ≤ 1 := by
      intro l hl
      rw [List.length_map]
      exact hright.length_partners_le hleft.hasField hl
    have hlength := length_flatMap_add_length_filter hpairs
    simp only [List.isEmpty_map] at hlength
    rw [hleftLoop.length_eq]
    exact hlength
  · have hpairs : ∀ r ∈ right,
        ((partners leftField left rightField r).map fun l => besideKey rightField l r).length ≤
          1 := by
      intro r hr
      rw [List.length_map]
      exact hleft.length_partners_le hright.hasField hr
    have hlength := length_flatMap_add_length_filter hpairs
    simp only [List.isEmpty_map] at hlength
    exact hlength

end Partners

/--
The strict join succeeds exactly if all rows have their key and neither table has repeated
ones. It then gives the rows of the multi-join in the order of the right rows, and keeps
apart the same rows, so that every row is counted once on its side. Otherwise it fails with
the first row that has no key or repeats one, left rows before right rows.
-/
theorem strict_join_reorders_multi_join (left : Rows) (leftField : Nat) (right : Rows)
    (rightField : Nat) :
    ((∃ joined, strictJoin left leftField right rightField = .ok joined) ↔
      HasField leftField left ∧ HasField rightField right ∧
        duplicates left leftField = .ok [] ∧ duplicates right rightField = .ok []) ∧
    (∀ joined, strictJoin left leftField right rightField = .ok joined →
      ∃ multi, multiJoin left leftField right rightField = .ok multi ∧
        joined.onlyLeft = multi.onlyLeft ∧ joined.onlyRight = multi.onlyRight ∧
        joined.combined.Perm multi.combined ∧
        joined.combined = joinByRight left leftField right rightField ∧
        joined.combined.length + joined.onlyLeft.length = left.length ∧
        joined.combined.length + joined.onlyRight.length = right.length) ∧
    ∀ failure, strictJoin left leftField right rightField = .error failure ↔
      FirstOffence .left leftField left failure ∨
        UniqueKeys leftField left ∧ FirstOffence .right rightField right failure := by
  refine ⟨?_, fun joined h => ?_, fun failure => strictJoin_eq_error_iff⟩
  · rw [duplicates_eq_nil_iff, duplicates_eq_nil_iff]
    constructor
    · rintro ⟨joined, h⟩
      obtain ⟨hleft, hright, _⟩ := strictJoin_eq_ok_iff.mp h
      exact ⟨hleft.hasField, hright.hasField, ⟨hleft.hasField, hleft.nodup⟩, hright.hasField,
        hright.nodup⟩
    · rintro ⟨_, _, ⟨hleft, hleftKeys⟩, hright, hrightKeys⟩
      exact ⟨_, strictJoin_eq_ok_iff.mpr ⟨⟨hleft, hleftKeys⟩, ⟨hright, hrightKeys⟩, rfl⟩⟩
  · obtain ⟨hleft, hright, rfl⟩ := strictJoin_eq_ok_iff.mp h
    obtain ⟨hleftLength, hrightLength⟩ := length_joinByRight hleft hright
    exact ⟨_, multiJoin_eq_equiJoin hleft.hasField hright.hasField, rfl, rfl,
      (combined_perm_right hleft.hasField).symm, rfl, hleftLength, hrightLength⟩

/--
The partners of the right rows stand in another order than these. In the second left table
a repeated key comes before a row that has none.
-/
theorem strict_join_reorders_multi_join_of_crossed_rows :
    let left : Rows := [[ascii "a", ascii "1"], [ascii "b", ascii "2"], [ascii "c", ascii "3"]]
    let right : Rows := [[ascii "x", ascii "b"], [ascii "y", ascii "d"], [ascii "z", ascii "a"]]
    let first : Row := [ascii "a", ascii "1", ascii "z"]
    let second : Row := [ascii "b", ascii "2", ascii "x"]
    let apart : Rows × Rows := ([[ascii "c", ascii "3"]], [[ascii "y", ascii "d"]])
    let broken : Rows := [[ascii "a"], [ascii "b"], [ascii "a"], []]
    strictJoin left 0 right 1 = .ok ⟨[second, first], apart.1, apart.2⟩ ∧
      multiJoin left 0 right 1 = .ok ⟨[first, second], apart.1, apart.2⟩ ∧
      [second, first].Perm [first, second] ∧
      strictJoin broken 0 right 2 = .error (.repeatedKey .left 0 (ascii "a")) := by
  intro left right first second apart broken
  have hjoined : strictJoin left 0 right 1 = .ok ⟨[second, first], apart.1, apart.2⟩ := by decide
  have hmulti : multiJoin left 0 right 1 = .ok ⟨[first, second], apart.1, apart.2⟩ := by decide
  obtain ⟨_, hreorders, _⟩ := strict_join_reorders_multi_join left 0 right 1
  obtain ⟨multi, hmulti', _, _, hperm, _⟩ := hreorders _ hjoined
  cases hmulti.symm.trans hmulti'
  obtain ⟨_, _, herror⟩ := strict_join_reorders_multi_join broken 0 right 2
  have hbefore : UniqueKeys 0 [[ascii "a"], [ascii "b"]] := ⟨by decide, by decide⟩
  have hoffence : FirstOffence .left 0 broken (.repeatedKey .left 0 (ascii "a")) :=
    ⟨_, [ascii "a"], [[]], rfl, hbefore, .repeated List.mem_cons_self rfl rfl⟩
  exact ⟨hjoined, hmulti, hperm, (herror _).mpr (Or.inl hoffence)⟩

end JsonTable
