import JsonTable.Proofs.Json.Readers

/-!
# Reading string literals

The reader works with numbers where the grammar has characters: the tests for
surrogates are there so that every code point it encodes is a character.
-/

namespace JsonTable.Json

open Bytes

/-! ## Characters as bytes -/

theorem encode_eq_utf8EncodeChar (c : Char) : Utf8.encode c.toNat = String.utf8EncodeChar c := by
  have hvalid : c.toNat < 0x110000 := by
    rcases c.valid with h | h
    · exact Nat.lt_trans h (by decide)
    · exact h.2
  unfold Utf8.encode String.utf8EncodeChar
  rw [show c.val.toNat = c.toNat from rfl]
  generalize c.toNat = point at hvalid
  by_cases hone : point < 0x80
  · rw [if_pos hone, if_pos (by omega)]
  by_cases htwo : point < 0x800
  · have hfirst : point / 0x40 % 0x20 = point / 0x40 := Nat.mod_eq_of_lt (by omega)
    rw [if_neg hone, if_pos htwo, if_neg (by omega), if_pos (by omega), hfirst,
      Nat.add_comm 0xc0, Nat.add_comm 0x80]
  by_cases hthree : point < 0x10000
  · have hfirst : point / 0x1000 % 0x10 = point / 0x1000 := Nat.mod_eq_of_lt (by omega)
    rw [if_neg hone, if_neg htwo, if_pos hthree, if_neg (by omega), if_neg (by omega),
      if_pos (by omega), hfirst, Nat.add_comm 0xe0, Nat.add_comm 0x80, Nat.add_comm 0x80]
  · have hfirst : point / 0x40000 % 0x08 = point / 0x40000 := Nat.mod_eq_of_lt (by omega)
    rw [if_neg hone, if_neg htwo, if_neg hthree, if_neg (by omega), if_neg (by omega),
      if_neg (by omega), hfirst, Nat.add_comm 0xf0, Nat.add_comm 0x80, Nat.add_comm 0x80,
      Nat.add_comm 0x80]

theorem exists_toNat_eq {point : Nat} (h : point.isValidChar) : ∃ c : Char, c.toNat = point :=
  ⟨Char.ofNatAux point h, rfl⟩

/-! ## Escapes -/

theorem HexDigit.lt {b : UInt8} {value : Nat} (h : HexDigit b value) : value < 16 := by
  rcases h with h | h <;> exact (List.getElem?_eq_some_iff.mp h).1

theorem UnitEscape.lt {text : Bytes} {unit : Nat} (h : UnitEscape text unit) :
    unit < 0x10000 := by
  cases h with
  | digits ha hb hc hd =>
      have := ha.lt
      have := hb.lt
      have := hc.lt
      have := hd.lt
      omega

theorem hexDigit_of_hexValue? {b : UInt8} {value : Nat} (h : Byte.hexValue? b = some value) :
    HexDigit b value := by
  have hall : ∀ n : Fin 256, ∀ v ∈ Byte.hexValue? (UInt8.ofFin n),
      (ascii "0123456789abcdef")[v]? = some (UInt8.ofFin n) ∨
        (ascii "0123456789ABCDEF")[v]? = some (UInt8.ofFin n) := by
    decide +kernel
  exact hall b.toFin value h

theorem hexValue?_eq_some_iff {b : UInt8} {value : Nat} :
    Byte.hexValue? b = some value ↔ HexDigit b value := by
  refine ⟨hexDigit_of_hexValue?, fun h => ?_⟩
  have hall : ∀ v : Fin 16,
      (ascii "0123456789abcdef")[v.val]?.bind Byte.hexValue? = some v.val ∧
        (ascii "0123456789ABCDEF")[v.val]?.bind Byte.hexValue? = some v.val := by
    decide
  obtain ⟨hlower, hupper⟩ := hall ⟨value, h.lt⟩
  rcases h with h | h
  · simpa only [h, Option.bind_some] using hlower
  · simpa only [h, Option.bind_some] using hupper

theorem shortEscape?_eq_some_iff {letter b : UInt8} :
    shortEscape? letter = some b ↔ (letter, b) ∈ shortEscapes := by
  constructor
  · intro h
    unfold shortEscape? at h
    repeat' split at h
    all_goals cases h
    all_goals simp_all [shortEscapes]
  · intro h
    simp only [shortEscapes, List.mem_cons, Prod.mk.injEq, List.not_mem_nil, or_false] at h
    rcases h with ⟨rfl, rfl⟩ | ⟨rfl, rfl⟩ | ⟨rfl, rfl⟩ | ⟨rfl, rfl⟩ | ⟨rfl, rfl⟩ | ⟨rfl, rfl⟩ |
      ⟨rfl, rfl⟩ | ⟨rfl, rfl⟩ <;> rfl

theorem readHexDigits_succ_iff {escape text rest : Bytes} {missing value unit : Nat} :
    readHexDigits escape (missing + 1) value text = .ok (unit, rest) ↔
      ∃ b digit more, text = b :: more ∧ HexDigit b digit ∧
        readHexDigits escape missing (value * 16 + digit) more = .ok (unit, rest) := by
  cases text with
  | nil => simp [readHexDigits]
  | cons b text =>
      rw [readHexDigits]
      simp only [← hexValue?_eq_some_iff, List.cons.injEq]
      constructor
      · intro h
        split at h
        · cases h
        · next digit hdigit => exact ⟨b, digit, text, ⟨rfl, rfl⟩, hdigit, h⟩
      · rintro ⟨_, digit, _, ⟨rfl, rfl⟩, hdigit, h⟩
        rw [hdigit]
        exact h

/-- The reader is called after the letter; the escape begins at the backslash. -/
theorem readHexDigits_iff {escape digits rest : Bytes} {unit : Nat} :
    readHexDigits escape 4 0 digits = .ok (unit, rest) ↔
      ∃ text, Byte.backslash :: pointLetter :: digits = text ++ rest ∧ UnitEscape text unit := by
  simp only [readHexDigits_succ_iff, readHexDigits, Except.ok.injEq, Prod.mk.injEq]
  constructor
  · rintro ⟨a, i, _, rfl, ha, b, j, _, rfl, hb, c, k, _, rfl, hc, d, l, _, rfl, hd, rfl, rfl⟩
    have hunit : ((((0 * 16 + i) * 16 + j) * 16 + k) * 16 + l) =
        i * 0x1000 + j * 0x100 + k * 0x10 + l := by omega
    exact ⟨[Byte.backslash, pointLetter, a, b, c, d], rfl, hunit ▸ .digits ha hb hc hd⟩
  · rintro ⟨_, htext, h⟩
    cases h with
    | @digits a b c d i j k l ha hb hc hd =>
        cases htext
        exact ⟨a, i, _, rfl, ha, b, j, _, rfl, hb, c, k, _, rfl, hc, d, l, _, rfl, hd,
          by omega, rfl⟩

theorem isLowSurrogate_iff {unit : Nat} :
    isLowSurrogate unit = true ↔ ∃ j, j < 0x400 ∧ unit = 0xdc00 + j := by
  simp only [isLowSurrogate, Bool.and_eq_true, decide_eq_true_eq]
  constructor
  · rintro ⟨hlo, hhi⟩
    exact ⟨unit - 0xdc00, by omega, by omega⟩
  · rintro ⟨j, hj, h⟩
    omega

theorem isHighSurrogate_iff {unit : Nat} :
    isHighSurrogate unit = true ↔ ∃ i, i < 0x400 ∧ unit = 0xd800 + i := by
  simp only [isHighSurrogate, Bool.and_eq_true, decide_eq_true_eq]
  constructor
  · rintro ⟨hlo, hhi⟩
    exact ⟨unit - 0xd800, by omega, by omega⟩
  · rintro ⟨i, hi, h⟩
    omega

theorem combineSurrogates_eq {high low i j : Nat} (hhigh : high = 0xd800 + i)
    (hlow : low = 0xdc00 + j) :
    combineSurrogates high low = 0x10000 + i * 0x400 + j := by
  unfold combineSurrogates
  omega

theorem readPoint_sound {escape digits rest : Bytes} {point : Nat}
    (h : readPoint escape digits = .ok (point, rest)) :
    ∃ text c, Byte.backslash :: pointLetter :: digits = text ++ rest ∧ PointEscape text c ∧
      point = c.toNat := by
  simp only [readPoint, except_bind_eq_ok, Prod.exists] at h
  obtain ⟨high, after, hhigh, h⟩ := h
  obtain ⟨text, htext, hunit⟩ := readHexDigits_iff.mp hhigh
  split at h
  · cases h
  · next hlow =>
      split at h
      · next hsurrogate =>
          obtain ⟨i, hi, hhighUnit⟩ := isHighSurrogate_iff.mp hsurrogate
          split at h
          · cases h
          · next lowDigits hafter =>
              simp only [except_bind_eq_ok, Prod.exists] at h
              obtain ⟨low, _, hlowRead, h⟩ := h
              obtain ⟨lowText, hlowText, hlowUnit⟩ := readHexDigits_iff.mp hlowRead
              split at h
              · next hpair =>
                  obtain ⟨j, hj, hlowEq⟩ := isLowSurrogate_iff.mp hpair
                  simp only [pure, Except.pure, Except.ok.injEq, Prod.mk.injEq] at h
                  obtain ⟨hpoint, rfl⟩ := h
                  rw [combineSurrogates_eq hhighUnit hlowEq] at hpoint
                  obtain ⟨c, hc⟩ := exists_toNat_eq
                    (show (0x10000 + i * 0x400 + j).isValidChar from Or.inr (by omega))
                  have hafterText := Bytes.after?_eq_some_iff.mp hafter
                  refine ⟨text ++ lowText, c, ?_,
                    .pair hi hj (hhighUnit ▸ hunit) (hlowEq ▸ hlowUnit) hc, by omega⟩
                  rw [htext, hafterText, List.append_assoc, ← hlowText]
                  rfl
              · cases h
      · next hhigh =>
          simp only [pure, Except.pure, Except.ok.injEq, Prod.mk.injEq] at h
          obtain ⟨rfl, rfl⟩ := h
          have hvalid : high.isValidChar := by
            have hlt := hunit.lt
            simp only [isLowSurrogate, isHighSurrogate, Bool.and_eq_true, decide_eq_true_eq]
              at hlow hhigh
            simp only [Nat.isValidChar]
            omega
          obtain ⟨c, rfl⟩ := exists_toNat_eq hvalid
          exact ⟨text, c, htext, .unit hunit, rfl⟩

theorem UnitEscape.exists_digits {text : Bytes} {unit : Nat} (h : UnitEscape text unit) :
    ∃ digits, text = Byte.backslash :: pointLetter :: digits ∧
      ∀ escape rest, readHexDigits escape 4 0 (digits ++ rest) = .ok (unit, rest) := by
  have htext : ∃ digits, text = Byte.backslash :: pointLetter :: digits := by
    cases h
    exact ⟨_, rfl⟩
  obtain ⟨digits, rfl⟩ := htext
  exact ⟨digits, rfl, fun escape rest => readHexDigits_iff.mpr ⟨_, rfl, h⟩⟩

theorem surrogates_disjoint {unit : Nat} (h : isHighSurrogate unit = true) :
    isLowSurrogate unit = false := by
  simp only [isHighSurrogate, isLowSurrogate, Bool.and_eq_true, Bool.and_eq_false_iff,
    decide_eq_true_eq, decide_eq_false_iff_not] at *
  omega

theorem not_surrogate (c : Char) :
    isHighSurrogate c.toNat = false ∧ isLowSurrogate c.toNat = false := by
  have hvalid : c.toNat < 0xd800 ∨ 0xdfff < c.toNat ∧ c.toNat < 0x110000 := c.valid
  simp only [isHighSurrogate, isLowSurrogate, Bool.and_eq_false_iff, decide_eq_false_iff_not]
  omega

theorem readPoint_complete {text : Bytes} {c : Char} (h : PointEscape text c) (rest : Bytes) :
    ∃ digits, text ++ rest = Byte.backslash :: pointLetter :: digits ∧
      ∀ escape, readPoint escape digits = .ok (c.toNat, rest) := by
  cases h with
  | unit hunit =>
      obtain ⟨digits, rfl, hread⟩ := hunit.exists_digits
      refine ⟨digits ++ rest, rfl, fun escape => ?_⟩
      simp only [readPoint, hread, bind, Except.bind, (not_surrogate c).1, (not_surrogate c).2]
      rfl
  | @pair high low i j _ hi hj hhigh hlow hc =>
      obtain ⟨highDigits, rfl, hreadHigh⟩ := hhigh.exists_digits
      obtain ⟨lowDigits, rfl, hreadLow⟩ := hlow.exists_digits
      have hhighUnit : isHighSurrogate (0xd800 + i) = true :=
        isHighSurrogate_iff.mpr ⟨i, hi, rfl⟩
      have hlowUnit : isLowSurrogate (0xdc00 + j) = true := isLowSurrogate_iff.mpr ⟨j, hj, rfl⟩
      refine ⟨highDigits ++ (Byte.backslash :: pointLetter :: lowDigits ++ rest), by simp,
        fun escape => ?_⟩
      have hafter : Bytes.after? [Byte.backslash, pointLetter]
          (Byte.backslash :: pointLetter :: lowDigits ++ rest) = some (lowDigits ++ rest) :=
        Bytes.after?_eq_some_iff.mpr rfl
      simp only [readPoint, hreadHigh, bind, Except.bind, surrogates_disjoint hhighUnit, hhighUnit,
        hafter, hreadLow, hlowUnit]
      rw [hc, ← combineSurrogates_eq rfl rfl]
      rfl

/-! ## Literals -/

theorem readCharacter_sound {literal text bytes rest : Bytes}
    (hquote : text.head? ≠ some Byte.quote)
    (h : readCharacter literal text = .ok (bytes, rest)) :
    ∃ used, text = used ++ rest ∧ Character used bytes := by
  cases text with
  | nil => cases h
  | cons b text =>
      have hb : b ≠ Byte.quote := by simpa using hquote
      unfold readCharacter at h
      dsimp only at h
      split at h
      · cases h
      · next hcontrol =>
          split at h
          · next hbackslash =>
              cases h
              exact ⟨[b], rfl, .raw (UInt8.not_lt.mp hcontrol) hb hbackslash⟩
          · next hbackslash =>
              obtain rfl : b = Byte.backslash := Decidable.not_not.mp hbackslash
              split at h
              · cases h
              · next letter after =>
                  split at h
                  · next hletter =>
                      subst hletter
                      simp only [except_bind_eq_ok, Prod.exists] at h
                      obtain ⟨point, _, hpoint, h⟩ := h
                      cases h
                      obtain ⟨used, c, htext, hescape, rfl⟩ := readPoint_sound hpoint
                      exact ⟨used, htext, encode_eq_utf8EncodeChar c ▸ .point hescape⟩
                  · split at h
                    · next c hshort =>
                        cases h
                        exact ⟨[Byte.backslash, letter], rfl,
                          .short (shortEscape?_eq_some_iff.mp hshort)⟩
                    · cases h

theorem readCharacter_complete {used bytes : Bytes} (h : Character used bytes)
    (literal rest : Bytes) :
    Bytes.after? [Byte.quote] (used ++ rest) = none ∧
      readCharacter literal (used ++ rest) = .ok (bytes, rest) := by
  cases h with
  | @raw b hcontrol hquote hbackslash =>
      refine ⟨?_, ?_⟩
      · simp [Bytes.after?, Ne.symm hquote]
      · unfold readCharacter
        dsimp only [List.singleton_append]
        rw [if_neg (UInt8.not_lt.mpr hcontrol), if_pos hbackslash]
  | @short letter b hshort =>
      have hletter : letter ≠ pointLetter := by
        rintro rfl
        cases shortEscape?_eq_some_iff.mpr hshort
      refine ⟨rfl, ?_⟩
      simp only [List.cons_append, List.nil_append, readCharacter]
      rw [if_neg (by decide), if_neg (by simp), if_neg hletter,
        shortEscape?_eq_some_iff.mpr hshort]
  | @point _ c hescape =>
      obtain ⟨digits, htext, hread⟩ := readPoint_complete hescape rest
      refine ⟨htext ▸ rfl, ?_⟩
      rw [htext, readCharacter, if_neg (by decide), if_neg (by simp)]
      simp only [if_pos, hread, bind, Except.bind, encode_eq_utf8EncodeChar]
      rfl

theorem readCharacters_sound {literal text body result rest : Bytes}
    (h : readCharacters literal text body = .ok (result, rest)) :
    ∃ used bytes, body = used ++ Byte.quote :: rest ∧ Characters used bytes ∧
      result = text.reverse ++ bytes := by
  fun_induction readCharacters literal text body with
  | case1 text body after hafter =>
      cases h
      have hbody : body = [Byte.quote] ++ rest := Bytes.after?_eq_some_iff.mp hafter
      exact ⟨[], [], hbody, .nil, by simp⟩
  | case2 => cases h
  | case3 text body hnone character more hread ih =>
      have hquote := after?_singleton_eq_none_iff.mp hnone
      obtain ⟨first, rfl, hfirst⟩ := readCharacter_sound hquote hread
      obtain ⟨used, bytes, rfl, hcharacters, rfl⟩ := ih h
      exact ⟨first ++ used, character ++ bytes, by simp, .cons hfirst hcharacters, by simp⟩

theorem readCharacters_complete {used bytes : Bytes} (h : Characters used bytes)
    (literal text rest : Bytes) :
    readCharacters literal text (used ++ Byte.quote :: rest) =
      .ok (text.reverse ++ bytes, rest) := by
  induction h generalizing text with
  | nil =>
      have hquote : Bytes.after? [Byte.quote] (Byte.quote :: rest) = some rest :=
        Bytes.after?_eq_some_iff.mpr rfl
      rw [List.nil_append, List.append_nil, readCharacters, hquote]
  | @cons first more bytes moreBytes hfirst _ ih =>
      obtain ⟨hquote, hread⟩ := readCharacter_complete hfirst literal (more ++ Byte.quote :: rest)
      rw [List.append_assoc, readCharacters, hquote]
      dsimp only
      split
      · next hfailed => cases hread.symm.trans hfailed
      · next hnext =>
          cases hread.symm.trans hnext
          simp [ih]

theorem readLiteral_sound {body text rest : Bytes} (h : readLiteral body = .ok (text, rest)) :
    ∃ used, Byte.quote :: body = used ++ rest ∧ Literal used text := by
  obtain ⟨used, bytes, rfl, hcharacters, rfl⟩ := readCharacters_sound h
  exact ⟨_, by simp, .quoted hcharacters⟩

theorem readLiteral_complete {used text : Bytes} (h : Literal used text) (rest : Bytes) :
    ∃ body, used ++ rest = Byte.quote :: body ∧ readLiteral body = .ok (text, rest) := by
  cases h with
  | @quoted body _ hcharacters =>
      refine ⟨body ++ Byte.quote :: rest, by simp, ?_⟩
      rw [readLiteral, readCharacters_complete hcharacters]
      rfl

end JsonTable.Json
