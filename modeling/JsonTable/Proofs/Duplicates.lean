import JsonTable.Proofs.Groups
import JsonTable.Proofs.Keyed
import Mathlib.Data.List.Nodup

/-!
# Repeated keys

Rows that share their key with another row are found through the groups, and they are
listed in two ways: group by group with the keys ascending, or in one list in which the
keys stand as they first appear. Both hold the same groups, and so every such row once.
Going through the one list again finds every group where it was.
-/

namespace JsonTable

open Bytes

def keysOf (field : Nat) (rows : Rows) : List Bytes :=
  rows.filterMap fun row => row[field]?

/-- The keys that more than one row has, each once, in the order in which they first appear. -/
def repeatedKeys (field : Nat) (rows : Rows) : List Bytes :=
  (firstKeys field rows).filter fun key => 1 < (rowsWith field key rows).length

/-- The rows of a table whose key another row has as well. -/
def repeatedRows (field : Nat) (rows : Rows) : Rows :=
  rows.filter fun row => row[field]?.any fun key => 1 < (rowsWith field key rows).length

def repeatedEntries (field : Nat) (rows : Rows) : Keyed Rows :=
  (repeatedKeys field rows).map fun key => (key, rowsWith field key rows)

def rowsByKey (field : Nat) (keys : List Bytes) (rows : Rows) : Rows :=
  keys.flatMap fun key => rowsWith field key rows

variable {field : Nat} {rows : Rows} {failure : KeyFailure}

/-! ## Keys of more than one row -/

theorem length_rowsWith (field : Nat) (key : Bytes) (rows : Rows) :
    (rowsWith field key rows).length = (keysOf field rows).count key := by
  rw [rowsWith, keysOf, List.count_filterMap, List.countP_eq_length_filter]
  refine congrArg List.length (List.filter_congr fun row _ => ?_)
  rw [← beq_eq_decide]

theorem key_of_mem_rowsWith {key : Bytes} {row : Row} (h : row ∈ rowsWith field key rows) :
    row[field]? = some key := by
  simpa using (List.mem_filter.mp h).2

theorem mem_repeatedKeys_iff {key : Bytes} :
    key ∈ repeatedKeys field rows ↔ 1 < (rowsWith field key rows).length := by
  rw [repeatedKeys, List.mem_filter, mem_firstKeys_iff, decide_eq_true_eq, and_iff_right_iff_imp]
  intro h hnil
  rw [hnil] at h
  cases h

theorem nodup_repeatedKeys (field : Nat) (rows : Rows) : (repeatedKeys field rows).Nodup :=
  (nodup_eraseDups _).filter _

theorem repeatedKeys_eq_nil_iff : repeatedKeys field rows = [] ↔ (keysOf field rows).Nodup := by
  rw [List.eq_nil_iff_forall_not_mem, List.nodup_iff_count_le_one]
  simp only [mem_repeatedKeys_iff, length_rowsWith, Nat.not_lt]

theorem map_fst_repeatedEntries (field : Nat) (rows : Rows) :
    (repeatedEntries field rows).map Prod.fst = repeatedKeys field rows := by
  simp [repeatedEntries, Function.comp_def]

theorem nodup_map_fst_repeatedEntries (field : Nat) (rows : Rows) :
    ((repeatedEntries field rows).map Prod.fst).Nodup := by
  rw [map_fst_repeatedEntries]
  exact nodup_repeatedKeys field rows

theorem mem_repeatedEntries_iff {key : Bytes} {group : Rows} :
    (key, group) ∈ repeatedEntries field rows ↔
      group = rowsWith field key rows ∧ 1 < group.length := by
  rw [repeatedEntries, List.mem_map]
  constructor
  · rintro ⟨_, hkey, heq⟩
    cases heq
    exact ⟨rfl, mem_repeatedKeys_iff.mp hkey⟩
  · rintro ⟨rfl, hlength⟩
    exact ⟨key, mem_repeatedKeys_iff.mpr hlength, rfl⟩

theorem flatMap_repeatedEntries (field : Nat) (rows : Rows) :
    (repeatedEntries field rows).flatMap Prod.snd =
      rowsByKey field (repeatedKeys field rows) rows := by
  rw [repeatedEntries, List.flatMap_map, rowsByKey]

/-! ## Finding the groups -/

/-- A table without a key in some row has a first such row. -/
theorem exists_firstShort (side : Side) (index : Nat) (h : ¬ HasField field rows) :
    ∃ failure, FirstShort side field index rows failure := by
  cases hkeys : keyRows side field index rows with
  | ok keyed => exact absurd (keyRows_eq_ok_iff.mp hkeys).1 h
  | error failure => exact ⟨failure, keyRows_eq_error_iff.mp hkeys⟩

theorem repeatedGroups_eq_ok_iff {groups : Keyed Rows} :
    repeatedGroups rows field = .ok groups ↔
      HasField field rows ∧ groups = repeatedEntries field rows := by
  have hgroups : (groupRows (withKeys field rows)).filter (fun group => group.2.length > 1) =
      repeatedEntries field rows := by
    rw [groupRows_withKeys, List.filter_map]
    rfl
  simp only [repeatedGroups, except_bind_eq_ok, keyRows_eq_ok_iff]
  constructor
  · rintro ⟨_, ⟨hfield, rfl⟩, h⟩
    cases h
    exact ⟨hfield, hgroups⟩
  · rintro ⟨hfield, rfl⟩
    exact ⟨_, ⟨hfield, rfl⟩, congrArg Except.ok hgroups⟩

theorem repeatedGroups_eq_error_iff :
    repeatedGroups rows field = .error failure ↔ FirstShort .input field 0 rows failure := by
  simp only [repeatedGroups, except_bind_eq_error, keyRows_eq_error_iff]
  simp [pure, Except.pure]

theorem map_repeatedGroups_eq_ok_iff {α : Type} {f : Keyed Rows → α} {a : α} :
    (repeatedGroups rows field).map f = .ok a ↔
      HasField field rows ∧ a = f (repeatedEntries field rows) := by
  rw [except_map_eq_ok]
  constructor
  · rintro ⟨_, hentries, rfl⟩
    obtain ⟨hfield, rfl⟩ := repeatedGroups_eq_ok_iff.mp hentries
    exact ⟨hfield, rfl⟩
  · rintro ⟨hfield, rfl⟩
    exact ⟨_, repeatedGroups_eq_ok_iff.mpr ⟨hfield, rfl⟩, rfl⟩

theorem duplicates_eq_ok_iff {groups : Keyed Rows} :
    duplicates rows field = .ok groups ↔
      HasField field rows ∧ groups = (repeatedEntries field rows).sort :=
  map_repeatedGroups_eq_ok_iff

theorem duplicateRows_eq_ok_iff {flat : Rows} :
    duplicateRows rows field = .ok flat ↔
      HasField field rows ∧ flat = rowsByKey field (repeatedKeys field rows) rows := by
  rw [duplicateRows, map_repeatedGroups_eq_ok_iff, flatMap_repeatedEntries]

/-- Nothing is listed exactly if every row has a key of its own. -/
theorem duplicates_eq_nil_iff :
    duplicates rows field = .ok [] ↔ HasField field rows ∧ (keysOf field rows).Nodup := by
  rw [duplicates_eq_ok_iff, ← repeatedKeys_eq_nil_iff, ← map_fst_repeatedEntries,
    List.map_eq_nil_iff, eq_comm, ← List.length_eq_zero_iff, (Keyed.sort_perm _).length_eq,
    List.length_eq_zero_iff]

/-! ## Both lists -/

theorem flatMap_filter {α β : Type} (p : α → Bool) (f : α → List β) (as : List α) :
    (as.filter p).flatMap f = as.flatMap fun a => if p a then f a else [] := by
  induction as with
  | nil => rfl
  | cons a as ih => by_cases h : p a <;> simp [h, ih]

theorem lookup_repeatedEntries (field : Nat) (rows : Rows) (key : Bytes) :
    (repeatedEntries field rows).lookup key =
      if 1 < (rowsWith field key rows).length then some (rowsWith field key rows) else none := by
  have hnodup := nodup_map_fst_repeatedEntries field rows
  split
  · next h =>
      exact (Keyed.lookup_eq_some_iff_mem hnodup).mpr (mem_repeatedEntries_iff.mpr ⟨rfl, h⟩)
  · next h =>
      rw [Option.eq_none_iff_forall_ne_some]
      intro group hgroup
      obtain ⟨rfl, hlength⟩ :=
        mem_repeatedEntries_iff.mp ((Keyed.lookup_eq_some_iff_mem hnodup).mp hgroup)
      exact h hlength

/-- The one list has the groups of the other in the order in which keys first appear. -/
theorem rowsByKey_repeatedKeys (field : Nat) (rows : Rows) :
    rowsByKey field (repeatedKeys field rows) rows =
      (firstKeys field rows).flatMap fun key =>
        ((repeatedEntries field rows).sort.lookup key).getD [] := by
  rw [rowsByKey, repeatedKeys, flatMap_filter]
  refine List.flatMap_congr fun key _ => ?_
  rw [Keyed.lookup_sort (nodup_map_fst_repeatedEntries field rows), lookup_repeatedEntries]
  by_cases h : 1 < (rowsWith field key rows).length <;> simp [h]

/-- Every row with a repeated key is listed, and as often as it stands in the table. -/
theorem rowsByKey_repeatedKeys_perm (h : HasField field rows) :
    (rowsByKey field (repeatedKeys field rows) rows).Perm (repeatedRows field rows) := by
  have hgroups := flatMap_groupRows_perm (withKeys field rows)
  rw [map_snd_withKeys h, groupRows_withKeys, List.flatMap_map] at hgroups
  have hrepeated := hgroups.filter fun row =>
    row[field]?.any fun key => 1 < (rowsWith field key rows).length
  rw [List.filter_flatMap] at hrepeated
  rw [rowsByKey, repeatedKeys, flatMap_filter]
  refine List.Perm.trans (.of_eq (List.flatMap_congr fun key _ => ?_)) hrepeated
  -- The rows of a group are all listed or none of them is.
  have hsame : ∀ row ∈ rowsWith field key rows,
      (row[field]?.any fun key => decide (1 < (rowsWith field key rows).length)) =
        decide (1 < (rowsWith field key rows).length) := by
    intro row hrow
    rw [key_of_mem_rowsWith hrow, Option.any_some]
  rw [List.filter_congr hsame]
  by_cases hlength : 1 < (rowsWith field key rows).length <;> simp [hlength]

/-! ## Listing again -/

theorem eraseDups_replicate {count : Nat} (h : 0 < count) (key : Bytes) :
    (List.replicate count key).eraseDups = [key] := by
  obtain ⟨count, rfl⟩ := Nat.exists_eq_add_one.mpr h
  rw [List.replicate_succ, List.eraseDups_cons, List.filter_eq_nil_iff.mpr]
  · rfl
  · intro other hother
    simp [List.eq_of_mem_replicate hother]

theorem keysOf_rowsWith (field : Nat) (key : Bytes) (rows : Rows) :
    keysOf field (rowsWith field key rows) =
      List.replicate (rowsWith field key rows).length key := by
  have hkeys : keysOf field (rowsWith field key rows) =
      (rowsWith field key rows).filterMap fun _ => some key :=
    List.filterMap_congr fun row hrow => key_of_mem_rowsWith hrow
  rw [hkeys, List.filterMap_eq_map', List.map_const']

theorem exists_key_of_mem_rowsByKey {keys : List Bytes} {row : Row}
    (h : row ∈ rowsByKey field keys rows) : ∃ key ∈ keys, row[field]? = some key := by
  obtain ⟨key, hkey, hrow⟩ := List.mem_flatMap.mp h
  exact ⟨key, hkey, key_of_mem_rowsWith hrow⟩

theorem hasField_rowsByKey (field : Nat) (keys : List Bytes) (rows : Rows) :
    HasField field (rowsByKey field keys rows) := by
  intro row hrow
  obtain ⟨key, _, hkey⟩ := exists_key_of_mem_rowsByKey hrow
  exact (List.getElem?_eq_some_iff.mp hkey).1

/-- Where rows stand key by key, the keys first appear in that order. -/
theorem firstKeys_rowsByKey {keys : List Bytes} (hnodup : keys.Nodup)
    (hkeys : ∀ key ∈ keys, 0 < (rowsWith field key rows).length) :
    firstKeys field (rowsByKey field keys rows) = keys := by
  induction keys with
  | nil => rfl
  | cons key keys ih =>
      obtain ⟨hkey, hnodup⟩ := List.nodup_cons.mp hnodup
      obtain ⟨hlength, hkeys⟩ := List.forall_mem_cons.mp hkeys
      -- No later row has the key of the first rows.
      have hlater : (keysOf field (rowsByKey field keys rows)).removeAll
          (List.replicate (rowsWith field key rows).length key) =
            keysOf field (rowsByKey field keys rows) := by
        refine List.filter_eq_self.mpr fun other hother => ?_
        obtain ⟨row, hrow, hother⟩ := List.mem_filterMap.mp hother
        obtain ⟨rowKey, hmem, hrowKey⟩ := exists_key_of_mem_rowsByKey hrow
        cases hother.symm.trans hrowKey
        simp [List.mem_replicate, ne_of_mem_of_not_mem hmem hkey]
      have hsplit : keysOf field (rowsByKey field (key :: keys) rows) =
          List.replicate (rowsWith field key rows).length key ++
            keysOf field (rowsByKey field keys rows) := by
        rw [rowsByKey, List.flatMap_cons, keysOf, List.filterMap_append, ← keysOf, ← keysOf,
          keysOf_rowsWith, rowsByKey]
      calc
        (keysOf field (rowsByKey field (key :: keys) rows)).eraseDups
            = [key] ++ (keysOf field (rowsByKey field keys rows)).eraseDups := by
              rw [hsplit, List.eraseDups_append, hlater, eraseDups_replicate hlength]
        _ = key :: keys := congrArg (key :: ·) (ih hnodup hkeys)

/-- Where rows stand key by key, each key has the rows that it has in the table. -/
theorem rowsWith_rowsByKey {keys : List Bytes} (hnodup : keys.Nodup) {key : Bytes}
    (hkey : key ∈ keys) :
    rowsWith field key (rowsByKey field keys rows) = rowsWith field key rows := by
  have hothers (others : List Bytes) (hnot : key ∉ others) :
      rowsWith field key (rowsByKey field others rows) = [] := by
    rw [rowsWith, List.filter_eq_nil_iff]
    intro row hrow hrowKey
    obtain ⟨other, hother, hotherKey⟩ := exists_key_of_mem_rowsByKey hrow
    rw [decide_eq_true_eq, hotherKey, Option.some.injEq] at hrowKey
    exact hnot (hrowKey ▸ hother)
  have hself : rowsWith field key (rowsWith field key rows) = rowsWith field key rows := by
    simp [rowsWith]
  obtain ⟨before, after, rfl⟩ := List.append_of_mem hkey
  obtain ⟨hnot, _⟩ := List.nodup_cons.mp (List.nodup_middle.mp hnodup)
  obtain ⟨hbefore, hafter⟩ := not_or.mp (mt List.mem_append.mpr hnot)
  have hsplit : rowsByKey field (before ++ key :: after) rows =
      rowsByKey field before rows ++ (rowsWith field key rows ++ rowsByKey field after rows) := by
    simp [rowsByKey]
  calc
    rowsWith field key (rowsByKey field (before ++ key :: after) rows)
        = rowsWith field key (rowsByKey field before rows) ++
            (rowsWith field key (rowsWith field key rows) ++
              rowsWith field key (rowsByKey field after rows)) := by
          rw [hsplit]
          simp only [rowsWith, List.filter_append]
    _ = rowsWith field key rows := by
          rw [hothers before hbefore, hothers after hafter, hself, List.append_nil,
            List.nil_append]

/-- The one list has the same repeated keys with the same rows, and no other rows. -/
theorem duplicateRows_rowsByKey (field : Nat) (rows : Rows) :
    duplicateRows (rowsByKey field (repeatedKeys field rows) rows) field =
      .ok (rowsByKey field (repeatedKeys field rows) rows) := by
  have hnodup := nodup_repeatedKeys field rows
  have hgroup : ∀ key ∈ repeatedKeys field rows,
      rowsWith field key (rowsByKey field (repeatedKeys field rows) rows) =
        rowsWith field key rows := fun key hkey => rowsWith_rowsByKey hnodup hkey
  have hfirst : firstKeys field (rowsByKey field (repeatedKeys field rows) rows) =
      repeatedKeys field rows :=
    firstKeys_rowsByKey hnodup fun key hkey => Nat.zero_lt_of_lt (mem_repeatedKeys_iff.mp hkey)
  have hkeys : repeatedKeys field (rowsByKey field (repeatedKeys field rows) rows) =
      repeatedKeys field rows := by
    rw [repeatedKeys, hfirst]
    refine List.filter_eq_self.mpr fun key hkey => ?_
    rw [hgroup key hkey]
    exact decide_eq_true (mem_repeatedKeys_iff.mp hkey)
  refine duplicateRows_eq_ok_iff.mpr ⟨hasField_rowsByKey field _ rows, ?_⟩
  rw [hkeys]
  exact List.flatMap_congr fun key hkey => (hgroup key hkey).symm

/--
If all rows have their key, the keys that at least two rows have are listed in ascending
order with all rows that have them, and the one list holds the same groups in the order in
which the keys first appear. So it has the rows of the groups and those of the table whose
key is repeated, each as often as it stands there, and listed again it stays as it is. If a
row has no key neither list is made, and the first such row is the failure.
-/
theorem repeated_rows_are_listed_once (rows : Rows) (field : Nat) :
    (HasField field rows →
      ∃ groups flat, duplicates rows field = .ok groups ∧ duplicateRows rows field = .ok flat ∧
        groups.Ascending ∧
        (∀ key group, (key, group) ∈ groups ↔
          group = rowsWith field key rows ∧ 2 ≤ group.length) ∧
        flat = (firstKeys field rows).flatMap (fun key => (groups.lookup key).getD []) ∧
        flat.Perm (groups.flatMap Prod.snd) ∧ flat.Perm (repeatedRows field rows) ∧
        duplicateRows flat field = .ok flat) ∧
    (¬ HasField field rows →
      ∃ failure, FirstShort .input field 0 rows failure ∧
        duplicates rows field = .error failure ∧ duplicateRows rows field = .error failure) := by
  constructor
  · intro hfield
    have hsort := Keyed.sort_perm (repeatedEntries field rows)
    have hflat : (rowsByKey field (repeatedKeys field rows) rows).Perm
        ((repeatedEntries field rows).sort.flatMap Prod.snd) := by
      rw [← flatMap_repeatedEntries]
      exact hsort.symm.flatMap_right _
    exact ⟨_, _, duplicates_eq_ok_iff.mpr ⟨hfield, rfl⟩,
      duplicateRows_eq_ok_iff.mpr ⟨hfield, rfl⟩,
      Keyed.ascending_sort (nodup_map_fst_repeatedEntries field rows),
      fun key group => hsort.mem_iff.trans mem_repeatedEntries_iff,
      rowsByKey_repeatedKeys field rows, hflat, rowsByKey_repeatedKeys_perm hfield,
      duplicateRows_rowsByKey field rows⟩
  · intro hfield
    obtain ⟨failure, hshort⟩ := exists_firstShort .input 0 hfield
    have hgroups := repeatedGroups_eq_error_iff.mpr hshort
    exact ⟨failure, hshort, except_map_eq_error.mpr hgroups, except_map_eq_error.mpr hgroups⟩

/--
Two repeated keys, of which the greater comes first, around a key that stands once. For
the second field the third row is too short.
-/
theorem repeated_rows_of_mingled_keys_are_listed_once :
    let rows : Rows := [[ascii "b", ascii "1"], [ascii "c", ascii "2"], [ascii "a"],
      [ascii "b"], [ascii "a", ascii "3"]]
    let flat : Rows := [[ascii "b", ascii "1"], [ascii "b"], [ascii "a"], [ascii "a", ascii "3"]]
    HasField 0 rows ∧
      (∃ groups, duplicates rows 0 = .ok groups ∧ groups.Ascending ∧
        (ascii "a", [[ascii "a"], [ascii "a", ascii "3"]]) ∈ groups ∧
        flat.Perm (groups.flatMap Prod.snd)) ∧
      duplicateRows rows 0 = .ok flat ∧ duplicateRows flat 0 = .ok flat ∧
      ¬ HasField 1 rows ∧ duplicates rows 1 = .error (.shortRow .input 2 1 1) := by
  intro rows flat
  have hfield : HasField 0 rows := by decide
  have hshort : ¬ HasField 1 rows := by decide
  obtain ⟨groups, listed, hgroups, hlisted, hascending, hmem, _, hperm, _, hagain⟩ :=
    (repeated_rows_are_listed_once rows 0).1 hfield
  have hflat : duplicateRows rows 0 = .ok flat := by decide
  cases hflat.symm.trans hlisted
  obtain ⟨failure, _, herror, herror'⟩ := (repeated_rows_are_listed_once rows 1).2 hshort
  have hfailure : duplicateRows rows 1 = .error (.shortRow .input 2 1 1) := by decide
  cases hfailure.symm.trans herror'
  exact ⟨hfield, ⟨groups, hgroups, hascending, (hmem _ _).mpr (by decide), hperm⟩, hflat, hagain,
    hshort, herror⟩

end JsonTable
