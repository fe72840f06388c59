import JsonTable.Proofs.Groups

/-!
# Equi-joins

The multi-join finds the partners of a row through groups. What it gives is the equi-join:
every pair of a left and a right row with one key stands in it once, so that it holds the
rows of the nested loop over either side, in an order of its own. A row is kept apart
exactly if it has no partner.
-/

namespace JsonTable

open Bytes

def partners (field : Nat) (rows : Rows) (otherField : Nat) (other : Row) : Rows :=
  rows.filter fun row => row[field]? = other[otherField]?

def besideKey (rightField : Nat) (left right : Row) : Row :=
  left ++ (right.take rightField ++ right.drop (rightField + 1))

/-- The join without groups: key by key as they first appear on the left, left row by left row. -/
def equiJoin (left : Rows) (leftField : Nat) (right : Rows) (rightField : Nat) : Joined where
  combined :=
    (firstKeys leftField left).flatMap fun key =>
      (rowsWith leftField key left).flatMap fun l =>
        (rowsWith rightField key right).map fun r => besideKey rightField l r
  onlyLeft := left.filter fun l => (partners rightField right leftField l).isEmpty
  onlyRight := right.filter fun r => (partners leftField left rightField r).isEmpty

variable {left right : Rows} {leftField rightField : Nat}

/-! ## Joining through groups -/

theorem joinRow_eq_besideKey (l r : Row) : joinRow rightField l r = besideKey rightField l r := by
  rw [joinRow, besideKey, List.eraseIdx_eq_take_drop_succ]

theorem rowsWith_eq_partners {key : Bytes} {l : Row} (hl : l[leftField]? = some key) :
    rowsWith rightField key right = partners rightField right leftField l := by
  rw [rowsWith, partners, hl]

theorem combined_groups (left : Rows) (leftField : Nat) (right : Rows) (rightField : Nat) :
    ((groupRows (withKeys leftField left)).flatMap fun group =>
      match (groupRows (withKeys rightField right)).lookup group.1 with
      | none => []
      | some partners =>
          group.2.flatMap fun row => partners.map fun partner => joinRow rightField row partner) =
      (equiJoin left leftField right rightField).combined := by
  rw [groupRows_withKeys leftField, List.flatMap_map, equiJoin]
  refine List.flatMap_congr fun key _ => ?_
  simp only [lookup_groupRows_withKeys, joinRow_eq_besideKey]
  split
  · next h =>
      split at h
      · next hnone => simp [hnone]
      · cases h
  · next h =>
      split at h
      · cases h
      · cases h
        rfl

/-- The rows whose key begins no group on the other side are those without a partner there. -/
theorem rowsWithout_groups (h : HasField leftField left) :
    rowsWithout (groupRows (withKeys rightField right)) (withKeys leftField left) =
      left.filter fun l => (partners rightField right leftField l).isEmpty := by
  rw [rowsWithout, map_snd_filter_withKeys leftField
    (fun key => !hasKey (groupRows (withKeys rightField right)) key)]
  refine List.filter_congr fun l hl => ?_
  obtain ⟨key, hkey⟩ := h.exists_key hl
  rw [hkey, Option.any_some, hasKey, lookup_groupRows_withKeys, rowsWith_eq_partners hkey]
  cases partners rightField right leftField l <;> simp

theorem multiJoin_eq_equiJoin (hleft : HasField leftField left)
    (hright : HasField rightField right) :
    multiJoin left leftField right rightField =
      .ok (equiJoin left leftField right rightField) := by
  rw [multiJoin, except_bind_eq_ok]
  refine ⟨_, keyRows_eq_ok_iff.mpr ⟨hleft, rfl⟩, ?_⟩
  rw [except_bind_eq_ok]
  refine ⟨_, keyRows_eq_ok_iff.mpr ⟨hright, rfl⟩, congrArg Except.ok ?_⟩
  rw [equiJoin, Joined.mk.injEq]
  exact ⟨combined_groups left leftField right rightField, rowsWithout_groups hleft,
    rowsWithout_groups hright⟩

theorem multiJoin_eq_ok_iff {joined : Joined} :
    multiJoin left leftField right rightField = .ok joined ↔
      HasField leftField left ∧ HasField rightField right ∧
        joined = equiJoin left leftField right rightField := by
  constructor
  · intro h
    have hkeys := h
    rw [multiJoin] at hkeys
    simp only [except_bind_eq_ok, keyRows_eq_ok_iff] at hkeys
    obtain ⟨_, ⟨hleft, _⟩, _, ⟨hright, _⟩, _⟩ := hkeys
    rw [multiJoin_eq_equiJoin hleft hright] at h
    exact ⟨hleft, hright, (Except.ok.inj h).symm⟩
  · intro h
    obtain ⟨hleft, hright, rfl⟩ := h
    exact multiJoin_eq_equiJoin hleft hright

theorem multiJoin_eq_error_iff {failure : KeyFailure} :
    multiJoin left leftField right rightField = .error failure ↔
      FirstShort .left leftField 0 left failure ∨
        HasField leftField left ∧ FirstShort .right rightField 0 right failure := by
  rw [multiJoin]
  simp only [except_bind_eq_error, keyRows_eq_error_iff, keyRows_eq_ok_iff]
  simp [pure, Except.pure]

/-! ## Nested loops -/

theorem map_filter_eq_flatMap {α β : Type} (p : α → Bool) (f : α → β) (as : List α) :
    (as.filter p).map f = as.flatMap fun a => if p a then [f a] else [] := by
  induction as with
  | nil => rfl
  | cons a as ih => by_cases h : p a <;> simp [h, ih]

/-- Which of two nested loops is the outer one does not matter but for the order. -/
theorem nested_loops_perm {α β γ : Type} (p : α → β → Bool) (f : α → β → γ) (as : List α)
    (bs : List β) :
    (as.flatMap fun a => (bs.filter (p a)).map (f a)).Perm
      (bs.flatMap fun b => (as.filter (p · b)).map (f · b)) := by
  induction as with
  | nil => simp
  | cons a as ih =>
      have hinner (b : β) : ((a :: as).filter (p · b)).map (f · b) =
          (if p a b then [f a b] else []) ++ (as.filter (p · b)).map (f · b) := by
        by_cases h : p a b <;> simp [h]
      simp only [hinner]
      rw [List.flatMap_cons, map_filter_eq_flatMap]
      exact (ih.append_left _).trans (List.flatMap_append_perm bs _ _)

/-- Going through the left rows group by group misses none and visits none twice. -/
theorem combined_perm_left (h : HasField leftField left) :
    (equiJoin left leftField right rightField).combined.Perm
      (left.flatMap fun l =>
        (partners rightField right leftField l).map (besideKey rightField l)) := by
  let pairs (l : Row) : Rows :=
    (partners rightField right leftField l).map (besideKey rightField l)
  have hcombined : (equiJoin left leftField right rightField).combined =
      ((groupRows (withKeys leftField left)).flatMap Prod.snd).flatMap pairs := by
    rw [groupRows_withKeys, List.flatMap_map, List.flatMap_assoc, equiJoin]
    refine List.flatMap_congr fun key _ => List.flatMap_congr fun l hl => ?_
    have hkey : l[leftField]? = some key := by simpa using (List.mem_filter.mp hl).2
    rw [rowsWith_eq_partners hkey]
  have hgroups := flatMap_groupRows_perm (withKeys leftField left)
  rw [map_snd_withKeys h] at hgroups
  rw [hcombined]
  exact hgroups.flatMap_right pairs

theorem combined_perm_right (h : HasField leftField left) :
    (equiJoin left leftField right rightField).combined.Perm
      (right.flatMap fun r =>
        (partners leftField left rightField r).map fun l => besideKey rightField l r) := by
  refine (combined_perm_left h).trans ?_
  have hloops := nested_loops_perm (fun l r => decide (r[rightField]? = l[leftField]?))
    (besideKey rightField) left right
  simpa only [partners, eq_comm] using hloops

/--
If all rows have their key the multi-join is the equi-join, and otherwise it fails with the
first row that has none, left rows before right rows. Each left row stands in the equi-join
once for each of its partners, and so does each right row.
-/
theorem multi_join_pairs_every_match_once (left : Rows) (leftField : Nat) (right : Rows)
    (rightField : Nat) :
    (∀ joined, multiJoin left leftField right rightField = .ok joined ↔
      HasField leftField left ∧ HasField rightField right ∧
        joined = equiJoin left leftField right rightField) ∧
    (∀ failure, multiJoin left leftField right rightField = .error failure ↔
      FirstShort .left leftField 0 left failure ∨
        HasField leftField left ∧ FirstShort .right rightField 0 right failure) ∧
    (HasField leftField left →
      (equiJoin left leftField right rightField).combined.Perm
          (left.flatMap fun l =>
            (partners rightField right leftField l).map fun r => besideKey rightField l r) ∧
        (equiJoin left leftField right rightField).combined.Perm
          (right.flatMap fun r =>
            (partners leftField left rightField r).map fun l => besideKey rightField l r)) :=
  ⟨fun _ => multiJoin_eq_ok_iff, fun _ => multiJoin_eq_error_iff,
    fun h => ⟨combined_perm_left h, combined_perm_right h⟩⟩

/--
Rows of different lengths, with a key that stands twice on either side. For other fields
the second left row is too short, and it is reported although all right rows are, too.
-/
theorem multi_join_pairs_repeated_keys :
    let left : Rows := [[ascii "k", ascii "a"], [ascii "x"], [ascii "j"], [ascii "k"]]
    let right : Rows := [[ascii "p", ascii "j"], [ascii "q", ascii "k", ascii "r"],
      [ascii "s", ascii "k"], [ascii "t", ascii "y"]]
    let joined : Joined := {
      combined := [[ascii "k", ascii "a", ascii "q", ascii "r"], [ascii "k", ascii "a", ascii "s"],
        [ascii "k", ascii "q", ascii "r"], [ascii "k", ascii "s"], [ascii "j", ascii "p"]]
      onlyLeft := [[ascii "x"]]
      onlyRight := [[ascii "t", ascii "y"]] }
    HasField 0 left ∧ HasField 1 right ∧ multiJoin left 0 right 1 = .ok joined ∧
      joined.combined.Perm
        (left.flatMap fun l => (partners 1 right 0 l).map fun r => besideKey 1 l r) ∧
      multiJoin left 1 right 5 = .error (.shortRow .left 1 1 1) := by
  intro left right joined
  have hleft : HasField 0 left := by decide
  have hright : HasField 1 right := by decide
  have hjoined : joined = equiJoin left 0 right 1 := by decide
  have hshort : FirstShort .left 1 0 left (.shortRow .left 1 1 1) :=
    ⟨[[ascii "k", ascii "a"]], [ascii "x"], [[ascii "j"], [ascii "k"]], rfl, by decide, by decide,
      rfl⟩
  obtain ⟨hok, _, hpairs⟩ := multi_join_pairs_every_match_once left 0 right 1
  obtain ⟨_, herror, _⟩ := multi_join_pairs_every_match_once left 1 right 5
  exact ⟨hleft, hright, (hok joined).mpr ⟨hleft, hright, hjoined⟩, hjoined ▸ (hpairs hleft).1,
    (herror _).mpr (Or.inl hshort)⟩

end JsonTable
