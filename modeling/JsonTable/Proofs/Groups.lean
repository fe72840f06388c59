import JsonTable.Join
import JsonTable.Proofs.Reports
import Mathlib.Data.List.Induction
import Mathlib.Data.List.Perm.Basic

/-!
# Groups of rows

Rows are grouped by going through them once. What results can be said without the groups:
each key stands once, where it first appears, together with all rows that have it, in their
order. So a group is found under each key that some row has, and the groups together hold
every row exactly once.
-/

namespace JsonTable

def HasField (field : Nat) (rows : Rows) : Prop :=
  ∀ row ∈ rows, field < row.length

instance (field : Nat) (rows : Rows) : Decidable (HasField field rows) :=
  inferInstanceAs (Decidable (∀ row ∈ rows, field < row.length))

def withKeys (field : Nat) (rows : Rows) : Keyed Row :=
  rows.filterMap fun row => row[field]?.map fun key => (key, row)

/-- The keys of a table, each once, in the order in which they first appear. -/
def firstKeys (field : Nat) (rows : Rows) : List Bytes :=
  (rows.filterMap fun row => row[field]?).eraseDups

def rowsWith (field : Nat) (key : Bytes) (rows : Rows) : Rows :=
  rows.filter fun row => row[field]? = some key

/-- The failure is about the first of the rows, counted from an index on, without the field. -/
def FirstShort (side : Side) (field index : Nat) (rows : Rows) (failure : KeyFailure) : Prop :=
  ∃ before row after, rows = before ++ row :: after ∧ HasField field before ∧
    row.length ≤ field ∧
    failure = .shortRow side (index + before.length) row.length field

/-! ## Keys of rows -/

section Keys

variable {side : Side} {field : Nat}

@[simp]
theorem hasField_nil : HasField field [] := by
  simp [HasField]

@[simp]
theorem hasField_cons_iff {row : Row} {rows : Rows} :
    HasField field (row :: rows) ↔ field < row.length ∧ HasField field rows := by
  simp [HasField]

theorem HasField.exists_key {rows : Rows} (h : HasField field rows) {row : Row}
    (hrow : row ∈ rows) : ∃ key, row[field]? = some key :=
  ⟨_, List.getElem?_eq_getElem (h row hrow)⟩

theorem withKeys_cons {row : Row} (h : field < row.length) (rows : Rows) :
    withKeys field (row :: rows) = (row[field], row) :: withKeys field rows := by
  simp [withKeys, h]

theorem keyRows_eq_ok_iff {index : Nat} {rows : Rows} {keyed : Keyed Row} :
    keyRows side field index rows = .ok keyed ↔
      HasField field rows ∧ keyed = withKeys field rows := by
  induction rows generalizing index keyed with
  | nil => simp [keyRows, withKeys, eq_comm]
  | cons row rows ih =>
      simp only [keyRows, except_bind_eq_ok, ih]
      by_cases h : field < row.length
      · simp [rowKey, h, withKeys_cons h, pure, Except.pure, eq_comm]
      · simp [rowKey, h]

theorem not_firstShort_nil {index : Nat} {failure : KeyFailure} :
    ¬ FirstShort side field index [] failure := by
  rintro ⟨before, row, after, hrows, _⟩
  simp at hrows

theorem firstShort_cons_iff {index : Nat} {row : Row} {rows : Rows} {failure : KeyFailure} :
    FirstShort side field index (row :: rows) failure ↔
      row.length ≤ field ∧ failure = .shortRow side index row.length field ∨
        field < row.length ∧ FirstShort side field (index + 1) rows failure := by
  constructor
  · intro h
    obtain ⟨before, short, after, hrows, hbefore, hshort, rfl⟩ := h
    cases before with
    | nil =>
        obtain ⟨rfl, rfl⟩ := List.cons.inj hrows
        exact Or.inl ⟨hshort, rfl⟩
    | cons first before =>
        obtain ⟨rfl, rfl⟩ := List.cons.inj hrows
        obtain ⟨hfirst, hbefore⟩ := hasField_cons_iff.mp hbefore
        refine Or.inr ⟨hfirst, before, short, after, rfl, hbefore, hshort, ?_⟩
        rw [List.length_cons, Nat.add_right_comm, Nat.add_assoc]
  · intro h
    cases h with
    | inl h => exact ⟨[], row, rows, rfl, hasField_nil, h.1, h.2⟩
    | inr h =>
        obtain ⟨hrow, before, short, after, rfl, hbefore, hshort, rfl⟩ := h
        refine ⟨row :: before, short, after, rfl, hasField_cons_iff.mpr ⟨hrow, hbefore⟩, hshort, ?_⟩
        rw [List.length_cons, Nat.add_right_comm, Nat.add_assoc]

theorem keyRows_eq_error_iff {index : Nat} {rows : Rows} {failure : KeyFailure} :
    keyRows side field index rows = .error failure ↔
      FirstShort side field index rows failure := by
  induction rows generalizing index with
  | nil => simp [keyRows, not_firstShort_nil]
  | cons row rows ih =>
      rw [firstShort_cons_iff, ← ih, keyRows, except_bind_eq_error]
      by_cases h : field < row.length
      · simp [rowKey, h, except_bind_eq_error, Nat.not_le_of_lt h, pure, Except.pure]
      · simp [rowKey, h, Nat.le_of_not_lt h, eq_comm]

end Keys

/-! ## Keys that appear for the first time -/

theorem eraseDups_concat (keys : List Bytes) (key : Bytes) :
    (keys ++ [key]).eraseDups =
      if key ∈ keys then keys.eraseDups else keys.eraseDups ++ [key] := by
  rw [List.eraseDups_append, List.cons_removeAll]
  by_cases h : key ∈ keys <;> simp [h, List.eraseDups_cons]

theorem nodup_eraseDups (keys : List Bytes) : keys.eraseDups.Nodup := by
  induction keys using List.reverseRecOn with
  | nil => simp
  | append_singleton keys key ih =>
      rw [eraseDups_concat]
      split
      · exact ih
      · next h =>
          rw [(List.perm_append_singleton key keys.eraseDups).nodup_iff, List.nodup_cons]
          exact ⟨mt List.mem_eraseDups.mp h, ih⟩

/-! ## Groups -/

theorem groupRows_concat (keyed : Keyed Row) (entry : Bytes × Row) :
    groupRows (keyed ++ [entry]) = addToGroups (groupRows keyed) entry.1 entry.2 := by
  rw [groupRows, List.foldl_append, List.foldl_cons, List.foldl_nil, ← groupRows]

theorem addToGroups_map {keys : List Bytes} (hnodup : keys.Nodup) (rows : Bytes → Rows)
    {key : Bytes} (hnew : key ∉ keys → rows key = []) (row : Row) :
    addToGroups (keys.map fun k => (k, rows k)) key row =
      (if key ∈ keys then keys else keys ++ [key]).map fun k =>
        (k, if k = key then rows k ++ [row] else rows k) := by
  induction keys with
  | nil => simp [addToGroups, hnew]
  | cons k keys ih =>
      obtain ⟨hk, hnodup⟩ := List.nodup_cons.mp hnodup
      rw [List.map_cons, addToGroups]
      by_cases hsame : k = key
      · -- The other groups stay as they are, since none of them has the same key.
        subst hsame
        have hothers (other : Bytes) (hother : other ∈ keys) :
            (other, rows other) =
              (other, if other = k then rows other ++ [row] else rows other) := by
          have hne : other ≠ k := fun heq => hk (heq ▸ hother)
          rw [if_neg hne]
        simpa using List.map_congr_left hothers
      · rw [if_neg hsame, ih hnodup fun h => hnew (by simp [h, Ne.symm hsame])]
        by_cases hkey : key ∈ keys <;> simp [hkey, hsame, Ne.symm hsame]

theorem groupRows_eq_map (keyed : Keyed Row) :
    groupRows keyed =
      (keyed.map Prod.fst).eraseDups.map fun key =>
        (key, (keyed.filter fun entry => entry.1 = key).map Prod.snd) := by
  induction keyed using List.reverseRecOn with
  | nil => rfl
  | append_singleton keyed entry ih =>
      obtain ⟨key, row⟩ := entry
      have hnew : key ∉ (keyed.map Prod.fst).eraseDups →
          (keyed.filter fun entry => entry.1 = key).map Prod.snd = [] := by
        intro h
        rw [List.map_eq_nil_iff, List.filter_eq_nil_iff]
        intro entry hentry hkey
        rw [decide_eq_true_eq] at hkey
        exact h (List.mem_eraseDups.mpr (hkey ▸ List.mem_map_of_mem hentry))
      rw [groupRows_concat, ih, addToGroups_map (nodup_eraseDups _) _ hnew, List.map_append,
        List.map_singleton, eraseDups_concat]
      simp only [List.mem_eraseDups]
      refine List.map_congr_left fun k _ => ?_
      by_cases hsame : k = key
      · simp [hsame]
      · simp [hsame, Ne.symm hsame]

theorem map_fst_withKeys (field : Nat) (rows : Rows) :
    (withKeys field rows).map Prod.fst = rows.filterMap fun row => row[field]? := by
  simp [withKeys, List.map_filterMap, Function.comp_def]

theorem map_snd_withKeys {field : Nat} {rows : Rows} (h : HasField field rows) :
    (withKeys field rows).map Prod.snd = rows := by
  induction rows with
  | nil => rfl
  | cons row rows ih =>
      obtain ⟨hrow, hrows⟩ := hasField_cons_iff.mp h
      rw [withKeys_cons hrow, List.map_cons, ih hrows]

theorem map_snd_filter_withKeys (field : Nat) (p : Bytes → Bool) (rows : Rows) :
    ((withKeys field rows).filter fun entry => p entry.1).map Prod.snd =
      rows.filter fun row => row[field]?.any p := by
  rw [withKeys, List.filter_filterMap, List.map_filterMap, ← List.filterMap_eq_filter]
  refine congrArg (List.filterMap · rows) (funext fun row => ?_)
  cases hkey : row[field]? with
  | none => simp [Option.guard, hkey]
  | some key => by_cases h : p key <;> simp [Option.filter, Option.guard, hkey, h]

/-- The groups of a table hold its rows, each with all others of its key. -/
theorem groupRows_withKeys (field : Nat) (rows : Rows) :
    groupRows (withKeys field rows) =
      (firstKeys field rows).map fun key => (key, rowsWith field key rows) := by
  have hrows (key : Bytes) :
      ((withKeys field rows).filter fun entry => entry.1 = key).map Prod.snd =
        rowsWith field key rows := by
    rw [map_snd_filter_withKeys field (fun k => decide (k = key)) rows, rowsWith]
    refine List.filter_congr fun row _ => ?_
    cases row[field]? <;> simp
  simp only [groupRows_eq_map, map_fst_withKeys, hrows, firstKeys]

theorem mem_firstKeys_iff {field : Nat} {rows : Rows} {key : Bytes} :
    key ∈ firstKeys field rows ↔ rowsWith field key rows ≠ [] := by
  rw [firstKeys, List.mem_eraseDups, List.mem_filterMap, rowsWith, Ne, List.filter_eq_nil_iff]
  simp

theorem lookup_groupRows_withKeys (field : Nat) (rows : Rows) (key : Bytes) :
    (groupRows (withKeys field rows)).lookup key =
      if rowsWith field key rows = [] then none else some (rowsWith field key rows) := by
  rw [groupRows_withKeys]
  split
  · next h =>
      have hkey : key ∉ firstKeys field rows := fun hmem => mem_firstKeys_iff.mp hmem h
      rw [List.lookup_eq_none_iff]
      intro group hgroup
      obtain ⟨other, hother, rfl⟩ := List.mem_map.mp hgroup
      rw [bne_iff_ne]
      rintro rfl
      exact hkey hother
  · next h => exact List.lookup_graph _ (mem_firstKeys_iff.mpr h)

theorem addToGroups_perm (groups : Keyed Rows) (key : Bytes) (row : Row) :
    ((addToGroups groups key row).flatMap Prod.snd).Perm (row :: groups.flatMap Prod.snd) := by
  induction groups with
  | nil => simp [addToGroups]
  | cons group groups ih =>
      obtain ⟨other, rows⟩ := group
      rw [addToGroups]
      split
      · simp
      · rw [List.flatMap_cons, List.flatMap_cons]
        exact (ih.append_left rows).trans List.perm_middle

/-- Grouping neither loses a row nor holds one twice. -/
theorem flatMap_groupRows_perm (keyed : Keyed Row) :
    ((groupRows keyed).flatMap Prod.snd).Perm (keyed.map Prod.snd) := by
  induction keyed using List.reverseRecOn with
  | nil => exact .nil
  | append_singleton keyed entry ih =>
      rw [groupRows_concat, List.map_append]
      calc
        ((addToGroups (groupRows keyed) entry.1 entry.2).flatMap Prod.snd).Perm
            (entry.2 :: (groupRows keyed).flatMap Prod.snd) := addToGroups_perm _ _ _
        _ |>.Perm (entry.2 :: keyed.map Prod.snd) := ih.cons _
        _ |>.Perm (keyed.map Prod.snd ++ [entry.2]) := (List.perm_append_singleton _ _).symm

end JsonTable
