import JsonTable.Proofs.Json.Readers

/-!
# Reading numbers

The reader takes the parts of a number one after the other, each as long as
possible, and looks for a digit after a leading zero only at the very end. It
still takes exactly the numbers: a digit there is one that no part could take.
-/

namespace JsonTable.Json

open Bytes

/-! ## Digits -/

theorem isDigit_iff {b : UInt8} : Byte.isDigit b = true ↔ b ∈ ascii "0123456789" := by
  have hbytes : ascii "0123456789" =
      [0x30, 0x31, 0x32, 0x33, 0x34, 0x35, 0x36, 0x37, 0x38, 0x39] := rfl
  rw [hbytes]
  simp [Byte.isDigit, UInt8.le_iff_toNat_le, ← UInt8.toNat_inj]
  omega

theorem isDigit_iff_zero_or {b : UInt8} :
    Byte.isDigit b = true ↔ b = Byte.zero ∨ b ∈ ascii "123456789" := by
  rw [isDigit_iff, show ascii "0123456789" = Byte.zero :: ascii "123456789" from rfl,
    List.mem_cons]

def NoDigit (rest : Bytes) : Prop :=
  rest.head?.any Byte.isDigit = false

theorem NoDigit.takeWhile_append {digits rest : Bytes} (h : NoDigit rest)
    (hdigits : ∀ b ∈ digits, b ∈ ascii "0123456789") :
    (digits ++ rest).takeWhile Byte.isDigit = digits := by
  rw [List.takeWhile_append_of_pos fun b hb => isDigit_iff.mpr (hdigits b hb)]
  cases rest with
  | nil => simp
  | cons b rest =>
      have hb : Byte.isDigit b = false := h
      simp [hb]

theorem NoDigit.dropWhile_append {digits rest : Bytes} (h : NoDigit rest)
    (hdigits : ∀ b ∈ digits, b ∈ ascii "0123456789") :
    (digits ++ rest).dropWhile Byte.isDigit = rest := by
  rw [List.dropWhile_append_of_pos fun b hb => isDigit_iff.mpr (hdigits b hb)]
  cases rest with
  | nil => rfl
  | cons b rest =>
      have hb : Byte.isDigit b = false := h
      simp [hb]

theorem digits_takeWhile (text : Bytes) :
    ∀ b ∈ text.takeWhile Byte.isDigit, b ∈ ascii "0123456789" := by
  intro b hb
  have hall : (text.takeWhile Byte.isDigit).all Byte.isDigit = true := List.all_takeWhile
  exact isDigit_iff.mp (List.all_eq_true.mp hall b hb)

theorem Ends.not_head {rest : Bytes} (h : Ends rest) {isPart : UInt8 → Bool}
    (hspace : [Byte.space, Byte.tab, Byte.lineFeed, Byte.carriageReturn].any isPart = false)
    (hend : [Byte.comma, Byte.closeBracket, Byte.closeBrace].any isPart = false) :
    rest.head?.any isPart = false := by
  cases rest with
  | nil => rfl
  | cons b rest =>
      rw [List.any_eq_false] at hspace hend
      rcases h b rfl with hb | hb
      · exact Bool.eq_false_iff.mpr (hspace b (isSpace_iff.mp hb))
      · exact Bool.eq_false_iff.mpr (hend b hb)

/-! ## Parts -/

theorem splitSign_sound {isSign : UInt8 → Bool} {text sign rest : Bytes}
    (h : splitSign isSign text = (sign, rest)) :
    text = sign ++ rest ∧ (sign = [] ∨ ∃ b, isSign b = true ∧ sign = [b]) := by
  cases text with
  | nil =>
      cases h
      exact ⟨rfl, Or.inl rfl⟩
  | cons b text =>
      rw [splitSign] at h
      split at h
      · next hb =>
          cases h
          exact ⟨rfl, Or.inr ⟨b, hb, rfl⟩⟩
      · cases h
        exact ⟨rfl, Or.inl rfl⟩

theorem splitSign_complete {isSign : UInt8 → Bool} {sign rest : Bytes}
    (hsign : sign = [] ∨ ∃ b, isSign b = true ∧ sign = [b])
    (hrest : rest.head?.any isSign = false) :
    splitSign isSign (sign ++ rest) = (sign, rest) := by
  rcases hsign with rfl | ⟨b, hb, rfl⟩
  · cases rest with
    | nil => rfl
    | cons b rest =>
        have hb : isSign b = false := hrest
        simp [splitSign, hb]
  · simp [splitSign, hb]

theorem minus_iff {sign : Bytes} :
    (sign = [] ∨ ∃ b, (b == Byte.minus) = true ∧ sign = [b]) ↔ sign = [] ∨ sign = ascii "-" := by
  simp [show ascii "-" = [Byte.minus] from rfl]

theorem plus_or_minus_iff {sign : Bytes} :
    (sign = [] ∨ ∃ b, (b == Byte.plus || b == Byte.minus) = true ∧ sign = [b]) ↔
      sign = [] ∨ sign = ascii "+" ∨ sign = ascii "-" := by
  rw [show ascii "+" = [Byte.plus] from rfl, show ascii "-" = [Byte.minus] from rfl]
  simp only [Bool.or_eq_true, beq_iff_eq, or_and_right, exists_or, exists_eq_left]

theorem readInteger_sound {number taken rest : Bytes}
    (h : readInteger number = .ok (taken, rest)) :
    ∃ sign whole, number = sign ++ whole ++ rest ∧ taken = sign ++ whole ∧
      (sign = [] ∨ sign = ascii "-") ∧ Whole whole := by
  rw [readInteger] at h
  generalize hsplit : splitSign (· == Byte.minus) number = split at h
  obtain ⟨sign, text⟩ := split
  obtain ⟨rfl, hsign⟩ := splitSign_sound hsplit
  rw [minus_iff] at hsign
  cases text with
  | nil => cases h
  | cons b after =>
      dsimp only at h
      split at h
      · next hzero =>
          cases h
          exact ⟨sign, [b], by simp, rfl, hsign, hzero ▸ .zero⟩
      split at h
      · next hzero hdigit =>
          cases h
          have hwhole : Whole (b :: after.takeWhile Byte.isDigit) :=
            .digits ((isDigit_iff_zero_or.mp hdigit).resolve_left hzero) (digits_takeWhile after)
          rw [List.takeWhile_cons_of_pos hdigit, List.dropWhile_cons_of_pos hdigit]
          refine ⟨sign, _, ?_, rfl, hsign, hwhole⟩
          rw [List.append_assoc, List.cons_append, List.takeWhile_append_dropWhile]
      · cases h

theorem readInteger_complete {sign whole rest : Bytes} (hsign : sign = [] ∨ sign = ascii "-")
    (hwhole : Whole whole) (hrest : NoDigit rest) :
    readInteger (sign ++ whole ++ rest) = .ok (sign ++ whole, rest) := by
  have hsplit : splitSign (· == Byte.minus) (sign ++ (whole ++ rest)) = (sign, whole ++ rest) := by
    apply splitSign_complete (minus_iff.mpr hsign)
    cases hwhole with
    | zero => rfl
    | @digits b _ hb _ =>
        have hminus : b ≠ Byte.minus := by
          rintro rfl
          revert hb
          decide
        simpa using hminus
  rw [readInteger, List.append_assoc, hsplit]
  cases hwhole with
  | zero => rfl
  | @digits b tail hb htail =>
      have hzero : b ≠ Byte.zero := by
        rintro rfl
        revert hb
        decide
      have hdigit : Byte.isDigit b = true := isDigit_iff_zero_or.mpr (Or.inr hb)
      have hall : ∀ c ∈ b :: tail, c ∈ ascii "0123456789" := by
        intro c hc
        rcases List.mem_cons.mp hc with rfl | hc
        · exact isDigit_iff.mp hdigit
        · exact htail c hc
      dsimp only [List.cons_append]
      rw [if_neg hzero, if_pos hdigit, ← List.cons_append, hrest.takeWhile_append hall,
        hrest.dropWhile_append hall]

theorem readFraction_sound {number taken text taken' rest : Bytes}
    (h : readFraction number taken text = .ok (taken', rest)) :
    ∃ fraction, text = fraction ++ rest ∧ taken' = taken ++ fraction ∧ Fraction fraction := by
  cases text with
  | nil =>
      cases h
      exact ⟨[], by simp, by simp, .none⟩
  | cons b after =>
      rw [readFraction] at h
      split at h
      · next hdot =>
          dsimp only at h
          split at h
          · cases h
          · next hdigits =>
              cases h
              have hsome : Digits (after.takeWhile Byte.isDigit) :=
                ⟨by simpa using hdigits, digits_takeWhile after⟩
              exact ⟨b :: after.takeWhile Byte.isDigit, by simp, rfl, hdot ▸ .digits hsome⟩
      · cases h
        exact ⟨[], rfl, by simp, .none⟩

theorem readFraction_complete {number taken fraction rest : Bytes} (h : Fraction fraction)
    (hdigit : NoDigit rest) (hdot : rest.head?.any (· == Byte.dot) = false) :
    readFraction number taken (fraction ++ rest) = .ok (taken ++ fraction, rest) := by
  cases h with
  | none =>
      cases rest with
      | nil => simp [readFraction]
      | cons b rest =>
          have hb : b ≠ Byte.dot := by simpa using hdot
          simp [readFraction, hb]
  | digits hdigits =>
      rw [List.cons_append, readFraction, if_pos rfl, hdigit.takeWhile_append hdigits.2,
        hdigit.dropWhile_append hdigits.2]
      simp [hdigits.1]

theorem mem_exponentLetters_iff {e : UInt8} : e ∈ ascii "eE" ↔ e = 0x65 ∨ e = 0x45 := by
  simp [show ascii "eE" = [0x65, 0x45] from rfl]

theorem readExponent_sound {number taken text taken' rest : Bytes}
    (h : readExponent number taken text = .ok (taken', rest)) :
    ∃ exponent, text = exponent ++ rest ∧ taken' = taken ++ exponent ∧ Exponent exponent := by
  cases text with
  | nil =>
      cases h
      exact ⟨[], by simp, by simp, .none⟩
  | cons b after =>
      rw [readExponent] at h
      split at h
      · next he =>
          generalize hsplit : splitSign (fun c => c == Byte.plus || c == Byte.minus) after =
            split at h
          obtain ⟨sign, digits⟩ := split
          obtain ⟨rfl, hsign⟩ := splitSign_sound hsplit
          rw [plus_or_minus_iff] at hsign
          dsimp only at h
          split at h
          · cases h
          · next hdigits =>
              cases h
              have hsome : Digits (digits.takeWhile Byte.isDigit) :=
                ⟨by simpa using hdigits, digits_takeWhile digits⟩
              refine ⟨b :: sign ++ digits.takeWhile Byte.isDigit, ?_, rfl,
                .digits (mem_exponentLetters_iff.mpr he) hsign hsome⟩
              simp
      · cases h
        exact ⟨[], rfl, by simp, .none⟩

theorem readExponent_complete {number taken exponent rest : Bytes} (h : Exponent exponent)
    (hdigit : NoDigit rest) (he : rest.head?.any (fun b => b == 0x65 || b == 0x45) = false) :
    readExponent number taken (exponent ++ rest) = .ok (taken ++ exponent, rest) := by
  cases h with
  | none =>
      cases rest with
      | nil => simp [readExponent]
      | cons b rest =>
          have hb : ¬ (b = 0x65 ∨ b = 0x45) := by simpa using he
          simp [readExponent, hb]
  | @digits e sign digits hletter hsign hdigits =>
      have hunsigned : (digits ++ rest).head?.any
          (fun c => c == Byte.plus || c == Byte.minus) = false := by
        cases digits with
        | nil => exact absurd rfl hdigits.1
        | cons d digits =>
            have hd := isDigit_iff.mpr (hdigits.2 d List.mem_cons_self)
            have hplus : d ≠ Byte.plus := by
              rintro rfl
              cases hd
            have hminus : d ≠ Byte.minus := by
              rintro rfl
              cases hd
            simp [hplus, hminus]
      have hsplit := splitSign_complete (plus_or_minus_iff.mpr hsign) hunsigned
      rw [List.append_assoc, List.cons_append, readExponent,
        if_pos (mem_exponentLetters_iff.mp hletter), hsplit]
      dsimp only
      rw [hdigit.takeWhile_append hdigits.2, hdigit.dropWhile_append hdigits.2]
      simp [hdigits.1]

/-! ## Numbers -/

theorem readNumber_sound {number taken rest : Bytes}
    (h : readNumber number = .ok (taken, rest)) : number = taken ++ rest ∧ Number taken := by
  simp only [readNumber, except_bind_eq_ok, Prod.exists] at h
  obtain ⟨_, _, hinteger, _, _, hfraction, _, _, hexponent, h⟩ := h
  obtain ⟨sign, whole, rfl, rfl, hsign, hwhole⟩ := readInteger_sound hinteger
  obtain ⟨fraction, rfl, rfl, hfrac⟩ := readFraction_sound hfraction
  obtain ⟨exponent, rfl, rfl, hexp⟩ := readExponent_sound hexponent
  split at h
  · cases h
  · cases h
    exact ⟨by simp, .parts hsign hwhole hfrac hexp⟩

/-- A part of a number begins with a byte that the part before it cannot take. -/
theorem Exponent.not_head_append {exponent rest : Bytes} (h : Exponent exponent)
    {isPart : UInt8 → Bool} (hpart : (ascii "eE").any isPart = false)
    (hrest : rest.head?.any isPart = false) : (exponent ++ rest).head?.any isPart = false := by
  cases h with
  | none => exact hrest
  | digits hletter _ _ => exact Bool.eq_false_iff.mpr (List.any_eq_false.mp hpart _ hletter)

theorem Fraction.noDigit_append {fraction rest : Bytes} (h : Fraction fraction)
    (hrest : NoDigit rest) : NoDigit (fraction ++ rest) := by
  cases h with
  | none => exact hrest
  | digits _ => rfl

theorem readNumber_complete {number rest : Bytes} (h : Number number) (hends : Ends rest) :
    readNumber (number ++ rest) = .ok (number, rest) := by
  have hdigit : NoDigit rest := hends.not_head rfl rfl
  have hdot : rest.head?.any (· == Byte.dot) = false := hends.not_head rfl rfl
  have he : rest.head?.any (fun b => b == 0x65 || b == 0x45) = false := hends.not_head rfl rfl
  cases h with
  | @parts sign whole fraction exponent hsign hwhole hfraction hexponent =>
      have hafter : NoDigit (exponent ++ rest) := hexponent.not_head_append rfl hdigit
      have hnoDot := hexponent.not_head_append rfl hdot
      have hinteger := readInteger_complete hsign hwhole (hfraction.noDigit_append hafter)
      have hsplit : sign ++ whole ++ fraction ++ exponent ++ rest =
          sign ++ whole ++ (fraction ++ (exponent ++ rest)) := by simp
      rw [readNumber, hsplit, hinteger]
      simp only [bind, Except.bind, readFraction_complete hfraction hafter hnoDot,
        readExponent_complete hexponent hdigit he]
      rw [hdigit]
      rfl

end JsonTable.Json
