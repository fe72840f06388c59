import JsonTable.Utf8

/-!
# Well-formed texts in parts

The bytes of ASCII stand for characters of their own and are in no other character,
so that a well-formed text may be cut before or after each of them. Hence whatever
puts ASCII bytes between well-formed texts, or replaces them by others, keeps texts
well-formed.
-/

namespace JsonTable.Utf8

def Ascii (text : Bytes) : Prop :=
  ∀ b ∈ text, b < 0x80

instance (text : Bytes) : Decidable (Ascii text) :=
  List.decidableBAll (fun b => b < 0x80) text

/-! ## Characters -/

theorem encode_of_lt {point : Nat} (h : point < 0x80) : encode point = [UInt8.ofNat point] :=
  if_pos h

theorem le_ofNat {n : Nat} (hlower : 0x80 ≤ n) (hupper : n < 0x100) : 0x80 ≤ UInt8.ofNat n := by
  rw [UInt8.le_iff_toNat_le, UInt8.toNat_ofNat', Nat.mod_eq_of_lt hupper]
  exact hlower

/-- Characters that are not ASCII have no ASCII byte. -/
theorem le_of_mem_encode {c : Char} (hc : 0x80 ≤ c.toNat) {b : UInt8} (hb : b ∈ encode c.toNat) :
    0x80 ≤ b := by
  have hvalid : c.toNat < 0x110000 := by
    rcases c.valid with h | h
    · exact Nat.lt_trans h (by decide)
    · exact h.2
  revert hb
  unfold encode
  generalize c.toNat = point at hc hvalid
  rw [if_neg (Nat.not_lt_of_le hc)]
  intro hb
  split at hb
  · simp only [List.mem_cons, List.not_mem_nil, or_false] at hb
    rcases hb with rfl | rfl <;> exact le_ofNat (by omega) (by omega)
  split at hb
  · simp only [List.mem_cons, List.not_mem_nil, or_false] at hb
    rcases hb with rfl | rfl | rfl <;> exact le_ofNat (by omega) (by omega)
  · simp only [List.mem_cons, List.not_mem_nil, or_false] at hb
    rcases hb with rfl | rfl | rfl | rfl <;> exact le_ofNat (by omega) (by omega)

theorem encode_of_mem {c : Char} {b : UInt8} (hb : b < 0x80) (h : b ∈ encode c.toNat) :
    encode c.toNat = [b] := by
  by_cases hc : c.toNat < 0x80
  · rw [encode_of_lt hc] at h ⊢
    rw [List.mem_singleton.mp h]
  · exact absurd (le_of_mem_encode (Nat.le_of_not_lt hc) h) (UInt8.not_le.mpr hb)

/-- An ASCII byte is not cut off from anything in its character. -/
theorem eq_nil_of_encode_eq {c : Char} {before after : Bytes} {b : UInt8} (hb : b < 0x80)
    (h : encode c.toNat = before ++ b :: after) : before = [] ∧ after = [] := by
  have hmem : b ∈ encode c.toNat := h ▸ List.mem_append_right before List.mem_cons_self
  have hlength := congrArg List.length h
  rw [encode_of_mem hb hmem] at hlength
  simp only [List.length_append, List.length_cons, List.length_nil] at hlength
  exact ⟨List.length_eq_zero_iff.mp (by omega), List.length_eq_zero_iff.mp (by omega)⟩

theorem encodeAll_cons (c : Char) (cs : List Char) :
    encodeAll (c :: cs) = encode c.toNat ++ encodeAll cs :=
  rfl

/-! ## Cutting texts -/

theorem wellFormed_nil : WellFormed [] :=
  ⟨[], rfl⟩

theorem wellFormed_encode (c : Char) : WellFormed (encode c.toNat) :=
  ⟨[c], by rw [encodeAll_cons, encodeAll_nil, List.append_nil]⟩

theorem wellFormed_singleton {b : UInt8} (hb : b < 0x80) : WellFormed [b] := by
  have hlt : b.toNat < 0x80 := UInt8.lt_iff_toNat_lt.mp hb
  have hencode : encode (Char.ofNatAux b.toNat (Or.inl (by omega))).toNat = [b] := by
    rw [show (Char.ofNatAux b.toNat _).toNat = b.toNat from rfl, encode_of_lt hlt,
      UInt8.ofNat_toNat]
  exact hencode ▸ wellFormed_encode _

theorem wellFormed_of_append_cons {before after : Bytes} {b : UInt8} (hb : b < 0x80)
    (h : WellFormed (before ++ b :: after)) : WellFormed before ∧ WellFormed after := by
  obtain ⟨cs, h⟩ := h
  induction cs generalizing before with
  | nil => simp at h
  | cons c cs ih =>
      rw [encodeAll_cons] at h
      rcases List.append_eq_append_iff.mp h with ⟨tail, hc, hcut⟩ | ⟨tail, rfl, hcs⟩
      · cases tail with
        | nil =>
            obtain ⟨_, hafter⟩ := @ih [] hcut
            rw [List.append_nil] at hc
            exact ⟨hc ▸ wellFormed_encode c, hafter⟩
        | cons x tail =>
            obtain ⟨rfl, rfl⟩ := List.cons.inj hcut
            obtain ⟨rfl, rfl⟩ := eq_nil_of_encode_eq hb hc
            exact ⟨wellFormed_nil, cs, rfl⟩
      · obtain ⟨hbefore, hafter⟩ := ih hcs.symm
        exact ⟨(wellFormed_encode c).append hbefore, hafter⟩

theorem wellFormed_append_cons_iff {before after : Bytes} {b : UInt8} (hb : b < 0x80) :
    WellFormed (before ++ b :: after) ↔ WellFormed before ∧ WellFormed after := by
  refine ⟨wellFormed_of_append_cons hb, fun ⟨hbefore, hafter⟩ => ?_⟩
  rw [← List.singleton_append]
  exact hbefore.append ((wellFormed_singleton hb).append hafter)

theorem wellFormed_cons_iff {after : Bytes} {b : UInt8} (hb : b < 0x80) :
    WellFormed (b :: after) ↔ WellFormed after := by
  rw [← List.nil_append (b :: after), wellFormed_append_cons_iff hb]
  exact and_iff_right wellFormed_nil

namespace Ascii

variable {text : Bytes}

theorem of_cons {b : UInt8} (h : Ascii (b :: text)) : b < 0x80 ∧ Ascii text :=
  List.forall_mem_cons.mp h

theorem append {more : Bytes} (h : Ascii text) (hmore : Ascii more) : Ascii (text ++ more) :=
  List.forall_mem_append.mpr ⟨h, hmore⟩

theorem wellFormed_append_iff (h : Ascii text) {after : Bytes} :
    WellFormed (text ++ after) ↔ WellFormed after := by
  induction text with
  | nil => rfl
  | cons b text ih =>
      obtain ⟨hb, htext⟩ := h.of_cons
      rw [List.cons_append, wellFormed_cons_iff hb, ih htext]

theorem wellFormed (h : Ascii text) : WellFormed text := by
  rw [← List.append_nil text, h.wellFormed_append_iff]
  exact wellFormed_nil

/-- What stands before and after ASCII bytes is well-formed or not by itself. -/
theorem wellFormed_append_append_iff (h : Ascii text) (hne : text ≠ []) {before after : Bytes} :
    WellFormed (before ++ (text ++ after)) ↔ WellFormed before ∧ WellFormed after := by
  cases text with
  | nil => exact absurd rfl hne
  | cons b text =>
      obtain ⟨hb, htext⟩ := h.of_cons
      rw [List.cons_append, wellFormed_append_cons_iff hb, htext.wellFormed_append_iff]

theorem wellFormed_append_right_iff (h : Ascii text) {before : Bytes} :
    WellFormed (before ++ text) ↔ WellFormed before := by
  cases text with
  | nil => rw [List.append_nil]
  | cons b text =>
      obtain ⟨hb, htext⟩ := h.of_cons
      rw [wellFormed_append_cons_iff hb]
      exact and_iff_left htext.wellFormed

end Ascii

/-! ## Putting texts together -/

theorem WellFormed.intercalate {separator : Bytes} (h : WellFormed separator) :
    (texts : List Bytes) → (∀ text ∈ texts, WellFormed text) →
      WellFormed (separator.intercalate texts)
  | [], _ => wellFormed_nil
  | [text], htexts => by
      rw [List.intercalate_singleton]
      exact htexts text List.mem_cons_self
  | text :: next :: texts, htexts => by
      obtain ⟨htext, hrest⟩ := List.forall_mem_cons.mp htexts
      rw [List.intercalate_cons_cons]
      exact (htext.append h).append (h.intercalate (next :: texts) hrest)

/-- Bytes of ASCII may be replaced by well-formed texts, one by one. -/
theorem WellFormed.flatMap {replace : UInt8 → Bytes} {text : Bytes} (h : WellFormed text)
    (hascii : ∀ b < 0x80, WellFormed (replace b)) (hother : ∀ b, 0x80 ≤ b → replace b = [b]) :
    WellFormed (text.flatMap replace) := by
  obtain ⟨cs, rfl⟩ := h
  induction cs with
  | nil => exact wellFormed_nil
  | cons c cs ih =>
      rw [encodeAll_cons, List.flatMap_append]
      refine WellFormed.append ?_ ih
      by_cases hc : c.toNat < 0x80
      · have hb : UInt8.ofNat c.toNat < 0x80 := by
          rw [UInt8.lt_iff_toNat_lt, UInt8.toNat_ofNat', Nat.mod_eq_of_lt (by omega)]
          exact hc
        rw [encode_of_lt hc, List.flatMap_singleton]
        exact hascii _ hb
      · have hkept : (encode c.toNat).map replace = (encode c.toNat).map fun b => [b] :=
          List.map_congr_left fun b hb => hother b (le_of_mem_encode (Nat.le_of_not_lt hc) hb)
        rw [List.flatMap_def, hkept, ← List.flatMap_def, List.flatMap_singleton']
        exact wellFormed_encode c

end JsonTable.Utf8
