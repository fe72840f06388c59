/-!
# Binary search

In an array where all entries `below` some bound stand before the others, `lowerBound`
finds the first of the others without looking at each.
-/

namespace JsonTable

variable {α : Type} {entries : Array α} {below : α → Bool} {low high index : Nat}

/--
Binary search in an array where the entries that are `below` come first: the first index of
`[low, high]` from which on no entry before `high` is below.
-/
def lowerBound (entries : Array α) (below : α → Bool) (low high : Nat)
    (fits : high ≤ entries.size) : Nat :=
  if h : low < high then
    let middle := (low + high) / 2
    have : middle < entries.size := by omega
    if below entries[middle] then
      lowerBound entries below (middle + 1) high fits
    else
      lowerBound entries below low middle (by omega)
  else low
termination_by high - low

/-- The search stays in its range, also where the entries are not in order. -/
theorem lowerBound_le (fits : high ≤ entries.size) (h : low ≤ high) :
    lowerBound entries below low high fits ≤ high := by
  fun_induction lowerBound entries below low high fits with
  | case1 low high fits hlt middle hmiddle hbelow ih => exact ih (by omega)
  | case2 low high fits hlt middle hmiddle hbelow ih =>
      have := ih (by omega)
      omega
  | case3 low high fits hlt => exact h

/-- Outside of the range that is still searched, it is known which entries are below. -/
theorem lt_lowerBound_iff_of_outside (fits : high ≤ entries.size) (hle : low ≤ high)
    (horder : ∀ i j (hj : j < entries.size) (hij : i ≤ j),
      below entries[j] = true → below entries[i] = true)
    (hlow : ∀ i (h : i < entries.size), i < low → below entries[i] = true)
    (hhigh : ∀ i (h : i < entries.size), high ≤ i → below entries[i] = false)
    (hindex : index < entries.size) :
    index < lowerBound entries below low high fits ↔ below entries[index] = true := by
  fun_induction lowerBound entries below low high fits with
  | case1 low high fits hlt middle hmiddle hbelow ih =>
      refine ih (by omega) horder (fun i hi hlt => ?_) hhigh
      exact horder i middle hmiddle (by omega) hbelow
  | case2 low high fits hlt middle hmiddle hbelow ih =>
      refine ih (by omega) horder hlow (fun i hi hle => ?_)
      exact Bool.eq_false_iff.mpr fun h => hbelow (horder middle i hi hle h)
  | case3 low high fits hlt =>
      by_cases hside : index < low
      · exact iff_of_true hside (hlow index hindex hside)
      · exact iff_of_false hside (by simp [hhigh index hindex (by omega)])

/-- What is found parts the entries below from the others, if these are in order. -/
theorem lt_lowerBound_iff
    (horder : entries.toList.Pairwise fun a b => below b = true → below a = true)
    (hindex : index < entries.size) :
    index < lowerBound entries below 0 entries.size (Nat.le_refl _) ↔
      below entries[index] = true := by
  refine lt_lowerBound_iff_of_outside _ (Nat.zero_le _) ?_ ?_ ?_ hindex
  · intro i j hj hij hbelow
    cases Nat.eq_or_lt_of_le hij with
    | inl heq =>
        subst heq
        exact hbelow
    | inr hlt =>
        have hi : i < entries.toList.length := by
          rw [Array.length_toList]
          omega
        exact List.pairwise_iff_getElem.mp horder i j hi (by rwa [Array.length_toList]) hlt hbelow
  · intro i hi hlt
    exact absurd hlt (Nat.not_lt_zero i)
  · intro i hi hle
    exact absurd hi (Nat.not_lt_of_le hle)

/-- What is found is how many entries are below, if these come first. -/
theorem lowerBound_eq_countP
    (horder : entries.toList.Pairwise fun a b => below b = true → below a = true) :
    lowerBound entries below 0 entries.size (Nat.le_refl _) = entries.toList.countP below := by
  have hfits : lowerBound entries below 0 entries.size (Nat.le_refl _) ≤ entries.size :=
    lowerBound_le _ (Nat.zero_le _)
  have hiff {index : Nat} (h : index < entries.size) := lt_lowerBound_iff horder h
  generalize lowerBound entries below 0 entries.size _ = bound at hfits hiff
  have hfirst : (entries.toList.take bound).countP below = bound := by
    rw [List.countP_eq_length.mpr, List.length_take, Array.length_toList, Nat.min_eq_left hfits]
    intro a ha
    obtain ⟨index, hindex, rfl⟩ := List.mem_take_iff_getElem.mp ha
    rw [Array.length_toList] at hindex
    exact (hiff (by omega)).mp (by omega)
  have hrest : (entries.toList.drop bound).countP below = 0 := by
    rw [List.countP_eq_zero]
    intro a ha
    obtain ⟨index, hindex, rfl⟩ := List.mem_drop_iff_getElem.mp ha
    rw [Array.length_toList] at hindex
    intro hbelow
    have hlt := (hiff (show bound + index < entries.size by omega)).mpr hbelow
    omega
  calc bound
      = (entries.toList.take bound).countP below + (entries.toList.drop bound).countP below := by
        rw [hfirst, hrest, Nat.add_zero]
    _ = entries.toList.countP below := by
        rw [← List.countP_append, List.take_append_drop]

end JsonTable
