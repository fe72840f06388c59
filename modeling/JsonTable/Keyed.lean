import JsonTable.Bytes
import JsonTable.LowerBound

/-!
# Keyed lists

Lists of entries with a key: the members of an object, the groups of rows with
one key. `Keyed.sort` lists the entries by ascending key in byte order; of the
keys that stand more than once `Keyed.repeatedKey?` then finds the smallest. In
a sorted list `Keyed.search?` finds the entry of a key by halving.
-/

namespace JsonTable

abbrev Keyed (α : Type) := List (Bytes × α)

namespace Keyed

variable {α : Type}

def sort (entries : Keyed α) : Keyed α :=
  entries.mergeSort fun a b => decide (a.1 ≤ b.1)

/-- The first key that two neighbours share. In a sorted list that is the smallest repeated key. -/
def repeatedKey? : Keyed α → Option Bytes
  | a :: b :: rest => if a.1 = b.1 then some a.1 else repeatedKey? (b :: rest)
  | _ => none

/-- The value under a key, found by halving a list in which the keys ascend. -/
def search? (entries : Keyed α) (key : Bytes) : Option α :=
  let array := entries.toArray
  let index := lowerBound array (fun entry => decide (entry.1 < key)) 0 array.size (Nat.le_refl _)
  match array[index]? with
  | some entry => if entry.1 = key then some entry.2 else none
  | none => none

def Ascending (entries : Keyed α) : Prop :=
  (entries.map Prod.fst).Pairwise (· < ·)

theorem sort_perm (entries : Keyed α) : (sort entries).Perm entries :=
  List.mergeSort_perm _ _

variable {entries : Keyed α}

theorem Ascending.nodup (h : Ascending entries) : (entries.map Prod.fst).Nodup := by
  refine List.Pairwise.imp (fun {a b} hlt => ?_) h
  rintro rfl
  exact List.lt_irrefl a hlt

/-- If no key stands twice, what is found under a key is what stands there. -/
theorem lookup_eq_some_iff_mem (h : (entries.map Prod.fst).Nodup) {key : Bytes} {value : α} :
    entries.lookup key = some value ↔ (key, value) ∈ entries := by
  rw [List.lookup_eq_some_iff]
  constructor
  · rintro ⟨before, after, rfl, _⟩
    exact List.mem_append_right _ List.mem_cons_self
  · intro hmem
    obtain ⟨before, after, rfl⟩ := List.append_of_mem hmem
    refine ⟨before, after, rfl, fun entry hentry => bne_iff_ne.mpr ?_⟩
    rw [List.map_append, List.nodup_append] at h
    exact (h.2.2 entry.1 (List.mem_map_of_mem hentry) key List.mem_cons_self).symm

theorem Ascending.getElem_lt (h : Ascending entries) {i j : Nat} (hi : i < entries.length)
    (hj : j < entries.length) (hij : i < j) : entries[i].1 < entries[j].1 :=
  List.pairwise_iff_getElem.mp (List.pairwise_map.mp h) i j hi hj hij

theorem Ascending.lowerBound_eq (h : Ascending entries) {index : Nat}
    (hindex : index < entries.length) :
    lowerBound entries.toArray (fun entry => decide (entry.1 < entries[index].1)) 0
      entries.toArray.size (Nat.le_refl _) = index := by
  generalize hkey : entries[index].1 = key
  have horder : entries.toArray.toList.Pairwise fun a b =>
      decide (b.1 < key) = true → decide (a.1 < key) = true := by
    refine (List.pairwise_map.mp h).imp fun hab hb => decide_eq_true ?_
    exact List.lt_trans hab (of_decide_eq_true hb)
  have hbelow {i : Nat} (hi : i < entries.toArray.size) := lt_lowerBound_iff horder hi
  simp only [List.size_toArray, List.getElem_toArray, decide_eq_true_eq] at hbelow
  generalize lowerBound entries.toArray (fun entry => decide (entry.1 < key)) 0 _ _ = bound
    at hbelow
  have hle : bound ≤ index := by
    refine Nat.le_of_not_lt fun hlt => ?_
    exact List.lt_irrefl _ (hkey ▸ (hbelow hindex).mp hlt)
  cases Nat.eq_or_lt_of_le hle with
  | inl heq => exact heq
  | inr hlt =>
      have hbound : bound < entries.length := Nat.lt_trans hlt hindex
      have hkeys := h.getElem_lt hbound hindex hlt
      exact absurd ((hbelow hbound).mpr (hkey ▸ hkeys)) (Nat.lt_irrefl bound)

/-- Where the keys ascend, halving finds what is found by going through the list. -/
theorem search?_eq_lookup (h : Ascending entries) (key : Bytes) :
    entries.search? key = entries.lookup key := by
  refine Option.ext fun value => ?_
  rw [lookup_eq_some_iff_mem h.nodup, search?]
  constructor
  · intro hfound
    split at hfound
    · next entry hentry =>
        split at hfound
        · next heq =>
            cases hfound
            subst heq
            rw [List.getElem?_toArray] at hentry
            exact List.mem_of_getElem? hentry
        · cases hfound
    · cases hfound
  · intro hmem
    obtain ⟨index, hindex, hentry⟩ := List.mem_iff_getElem.mp hmem
    have hbound := h.lowerBound_eq hindex
    simp only [hentry] at hbound
    simp only [hbound, List.getElem?_toArray, List.getElem?_eq_getElem hindex, hentry, if_true]

end Keyed

end JsonTable
