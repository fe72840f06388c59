import JsonTable.Document.Members
import Mathlib.Data.List.Duplicate

/-!
# Sorting by key

If no key stands twice, there is one order in which the keys ascend, and that is
what sorting gives. Otherwise two neighbours in the sorted list share a key, so
that looking at neighbours is enough to refuse the members of an object, and the
first two name the smallest such key.
-/

namespace JsonTable

namespace Keyed

variable {α : Type} {entries members : Keyed α}

theorem sort_pairwise (entries : Keyed α) : (sort entries).Pairwise fun a b => a.1 ≤ b.1 := by
  have htrans (a b c : Bytes × α) (hab : decide (a.1 ≤ b.1) = true)
      (hbc : decide (b.1 ≤ c.1) = true) : decide (a.1 ≤ c.1) = true :=
    decide_eq_true (List.le_trans (of_decide_eq_true hab) (of_decide_eq_true hbc))
  have htotal (a b : Bytes × α) : (decide (a.1 ≤ b.1) || decide (b.1 ≤ a.1)) = true := by
    simpa using List.le_total a.1 b.1
  exact (List.pairwise_mergeSort htrans htotal entries).imp of_decide_eq_true

theorem ascending_sort (h : (entries.map Prod.fst).Nodup) : Ascending (sort entries) := by
  have hnodup : ((sort entries).map Prod.fst).Nodup :=
    ((sort_perm entries).map Prod.fst).nodup_iff.mpr h
  have hne : (sort entries).Pairwise fun a b => a.1 ≠ b.1 := List.pairwise_map.mp hnodup
  refine List.pairwise_map.mpr (((sort_pairwise entries).and hne).imp ?_)
  rintro a b ⟨hle, hne⟩
  exact (List.le_iff_lt_or_eq.mp hle).resolve_right hne

theorem Ascending.eq_sort (h : Ascending members) (hperm : members.Perm entries) :
    members = sort entries := by
  have hnodup : (entries.map Prod.fst).Nodup := (hperm.map Prod.fst).nodup_iff.mp h.nodup
  refine List.Perm.eq_of_pairwise ?_ (List.pairwise_map.mp h)
    (List.pairwise_map.mp (ascending_sort hnodup)) (hperm.trans (sort_perm entries).symm)
  intro a b _ _ hab hba
  exact absurd hba (List.lt_asymm hab)

theorem lookup_sort (h : (entries.map Prod.fst).Nodup) (key : Bytes) :
    (sort entries).lookup key = entries.lookup key := by
  have hsorted := (ascending_sort h).nodup
  refine Option.ext fun value => ?_
  rw [lookup_eq_some_iff_mem hsorted, lookup_eq_some_iff_mem h, (sort_perm entries).mem_iff]

/-- Neighbours stand for all entries if the keys are sorted. -/
theorem repeatedKey?_eq_none_iff (h : entries.Pairwise fun a b => a.1 ≤ b.1) :
    repeatedKey? entries = none ↔ Ascending entries := by
  induction entries with
  | nil => simp [repeatedKey?, Ascending]
  | cons a rest ih =>
      cases rest with
      | nil => simp [repeatedKey?, Ascending]
      | cons b rest =>
          obtain ⟨ha, hrest⟩ := List.pairwise_cons.mp h
          have hab : a.1 ≤ b.1 := ha b List.mem_cons_self
          rw [repeatedKey?]
          constructor
          · intro hnone
            split at hnone
            · cases hnone
            · next hne =>
                have hlt : a.1 < b.1 := (List.le_iff_lt_or_eq.mp hab).resolve_right hne
                have hascending := (ih hrest).mp hnone
                refine List.pairwise_cons.mpr ⟨fun key hkey => ?_, hascending⟩
                rcases List.mem_cons.mp hkey with rfl | hkey
                · exact hlt
                · exact List.lt_trans hlt (List.rel_of_pairwise_cons hascending hkey)
          · intro hascending
            have hlt : a.1 < b.1 := List.rel_of_pairwise_cons hascending List.mem_cons_self
            rw [if_neg fun heq => List.lt_irrefl _ (heq ▸ hlt)]
            exact (ih hrest).mpr (List.pairwise_cons.mp hascending).2

structure SmallestRepeated (entries : Keyed α) (key : Bytes) : Prop where
  repeated : (entries.map Prod.fst).Duplicate key
  smallest : ∀ other, (entries.map Prod.fst).Duplicate other → key ≤ other

theorem SmallestRepeated.unique {key other : Bytes} (h : entries.SmallestRepeated key)
    (hother : entries.SmallestRepeated other) : key = other :=
  List.le_antisymm (h.smallest other hother.repeated) (hother.smallest key h.repeated)

theorem SmallestRepeated.perm {key : Bytes} (h : entries.SmallestRepeated key)
    (hperm : entries.Perm members) : members.SmallestRepeated key := by
  have hduplicate (other : Bytes) : (entries.map Prod.fst).Duplicate other ↔
      (members.map Prod.fst).Duplicate other := by
    rw [List.duplicate_iff_two_le_count, List.duplicate_iff_two_le_count,
      @List.Perm.count_eq _ instBEqOfDecidableEq _ _ (hperm.map Prod.fst)]
  exact ⟨(hduplicate key).mp h.repeated,
    fun other hother => h.smallest other ((hduplicate other).mpr hother)⟩

/-- The first neighbours with one key come before all others if the keys are sorted. -/
theorem smallestRepeated_of_repeatedKey? {key : Bytes}
    (h : entries.Pairwise fun a b => a.1 ≤ b.1) (hkey : repeatedKey? entries = some key) :
    entries.SmallestRepeated key := by
  induction entries with
  | nil => cases hkey
  | cons a rest ih =>
      cases rest with
      | nil => cases hkey
      | cons b rest =>
          obtain ⟨ha, hrest⟩ := List.pairwise_cons.mp h
          rw [repeatedKey?] at hkey
          split at hkey
          · next heq =>
              cases hkey
              constructor
              · exact List.duplicate_cons_self_iff.mpr (heq ▸ List.mem_cons_self)
              · intro other hother
                cases List.mem_cons.mp hother.mem with
                | inl hother => exact hother ▸ List.le_refl _
                | inr hother =>
                    obtain ⟨entry, hentry, rfl⟩ := List.mem_map.mp hother
                    exact ha entry hentry
          · next hne =>
              have hsmallest := ih hrest hkey
              refine ⟨hsmallest.repeated.duplicate_cons a.1, fun other hother => ?_⟩
              have hother : ((b :: rest).map Prod.fst).Duplicate other := by
                refine (List.duplicate_cons_iff_of_ne fun heq => ?_).mp hother
                -- A second entry with this key would have to stand before `b`.
                subst heq
                obtain ⟨entry, hentry, heq⟩ :=
                  List.mem_map.mp (List.duplicate_cons_self_iff.mp hother)
                have hle : b.1 ≤ a.1 := by
                  cases List.mem_cons.mp hentry with
                  | inl h => exact heq ▸ h ▸ List.le_refl _
                  | inr h => exact heq ▸ List.rel_of_pairwise_cons hrest h
                exact hne (List.le_antisymm (ha b List.mem_cons_self) hle)
              exact hsmallest.smallest other hother

end Keyed

namespace Document

variable {entries : Keyed Document} {d : Document}

/-- Objects are built from members with different keys, which are then brought in order. -/
theorem ofMembers_eq_ok_iff :
    ofMembers entries = .ok d ↔
      (entries.map Prod.fst).Nodup ∧
        ∃ members : Keyed Document, d = .object members ∧ members.Perm entries ∧
          members.Ascending := by
  have hrepeated := Keyed.repeatedKey?_eq_none_iff (Keyed.sort_pairwise entries)
  rw [ofMembers]
  constructor
  · intro h
    split at h
    · cases h
    · next hnone =>
        cases h
        have hascending := hrepeated.mp hnone
        exact ⟨((Keyed.sort_perm entries).map Prod.fst).nodup_iff.mp hascending.nodup,
          _, rfl, Keyed.sort_perm entries, hascending⟩
  · rintro ⟨hnodup, members, rfl, hperm, hascending⟩
    rw [hascending.eq_sort hperm, hrepeated.mpr (Keyed.ascending_sort hnodup)]

theorem ofMembers_eq_error_iff {misuse : Misuse} :
    ofMembers entries = .error misuse ↔
      ∃ key, misuse = .repeatedMember key ∧ entries.SmallestRepeated key := by
  have hsmallest {key : Bytes} (h : entries.sort.repeatedKey? = some key) :
      entries.SmallestRepeated key :=
    (Keyed.smallestRepeated_of_repeatedKey? (Keyed.sort_pairwise entries) h).perm
      (Keyed.sort_perm entries)
  constructor
  · intro h
    rw [ofMembers] at h
    split at h
    · next key hkey =>
        cases h
        exact ⟨key, rfl, hsmallest hkey⟩
    · cases h
  · rintro ⟨key, rfl, hkey⟩
    rw [ofMembers]
    split
    · next other hother => rw [(hsmallest hother).unique hkey]
    · next hnone =>
        have hascending := (Keyed.repeatedKey?_eq_none_iff (Keyed.sort_pairwise entries)).mp hnone
        have hnodup := ((Keyed.sort_perm entries).map Prod.fst).nodup_iff.mp hascending.nodup
        exact absurd hnodup hkey.repeated.not_nodup

end Document

end JsonTable
