import JsonTable.Format.Compiler
import JsonTable.Proofs.Cursor

/-!
# Reading tokens by position and by what is left

The readers of keys and brackets by position agree with those on the bytes that are left. A
message shows no more of the format than the window that is looked at for it.
-/

namespace JsonTable.Format.Cursor

open Bytes

variable {source : Source} {start position : Nat} {rest : Bytes}

/-! ## Blanks -/

/-- A comment is left at the newline that ends it, which is a blank. -/
theorem skipBlanksFrom_comment (text : Bytes) :
    skipBlanksFrom true text = skipBlanksFrom false (text.dropWhile (· != Byte.lineFeed)) := by
  induction text with
  | nil => rfl
  | cons b text ih =>
      rw [skipBlanksFrom]
      by_cases hb : b = Byte.lineFeed
      · rw [hb]
        rfl
      · have hne : (b != Byte.lineFeed) = true := bne_iff_ne.mpr hb
        rw [hne, List.dropWhile_cons, if_pos hne, ih]

theorem skipBlanks_at {rounds : Nat} (hrounds : rest.length ≤ rounds)
    (h : source.At start position rest) :
    ∃ next, skipBlanks source rounds position = .ok next ∧
      source.At start next (Format.skipBlanks rest) := by
  induction rounds generalizing position rest with
  | zero =>
      obtain rfl := List.eq_nil_of_length_eq_zero (Nat.le_zero.mp hrounds)
      exact ⟨position, rfl, h⟩
  | succ rounds ih =>
      rw [skipBlanks]
      cases rest with
      | nil =>
          rw [if_neg h.not_lt_size]
          exact ⟨position, rfl, h⟩
      | cons b rest =>
          have hle : rest.length ≤ rounds := Nat.le_of_succ_le_succ hrounds
          rw [if_pos h.lt_size, h.byte_bind, Format.skipBlanks, skipBlanksFrom]
          by_cases hblank : isBlank b = true
          · rw [if_pos hblank, if_pos hblank]
            exact ih hle h.tail
          by_cases hhash : b = Byte.hash
          · have hcomment := h.find_or_end Byte.lineFeed
            have hnewline : (b != Byte.lineFeed) = true := by
              rw [hhash]
              decide
            rw [List.dropWhile_cons, if_pos hnewline] at hcomment
            have hshort := (List.dropWhile_suffix (· != Byte.lineFeed) (l := rest)).length_le
            rw [if_neg hblank, if_neg hblank, if_pos hhash, if_pos hhash, skipBlanksFrom_comment]
            exact ih (Nat.le_trans hshort hle) hcomment
          · rw [if_neg hblank, if_neg hblank, if_neg hhash, if_neg hhash]
            exact ⟨position, rfl, h⟩

theorem nextToken_at (h : source.At start position rest) :
    ∃ next, nextToken source position = .ok next ∧
      source.At start next (Format.skipBlanks rest) := by
  refine skipBlanks_at (Nat.le_of_eq ?_) h
  rw [h.size_eq, Nat.add_sub_cancel_left]

theorem nextToken_bind {α : Type} {next : Nat} (h : nextToken source position = .ok next)
    (goOn : Nat → Scan α) : nextToken source position >>= goOn = goOn next := by
  rw [h]
  rfl

/-! ## Excerpts -/

theorem excerpt_window (text : Bytes) :
    excerpt excerptLimit (text.take excerptWindow) = excerpt excerptLimit text := by
  rw [excerpt, excerpt, excerptLimit, excerptWindow, List.length_take]
  by_cases hshort : text.length ≤ 20
  · rw [if_pos hshort, if_pos (by omega), List.take_of_length_le (by omega)]
  · rw [if_neg hshort, if_neg (by omega), List.take_take]
    rfl

theorem expectedKey_window (role : KeyRole) (text : Bytes) :
    (Cause.expectedKey role (text.take excerptWindow)).message =
      (Cause.expectedKey role text).message := by
  rw [Cause.message, Cause.message, excerpt_window]

theorem unterminatedKey_window (text : Bytes) :
    (Cause.unterminatedKey (text.take excerptWindow)).message =
      (Cause.unterminatedKey text).message := by
  rw [Cause.message, Cause.message, excerpt_window]

theorem unknownByte_window (b : UInt8) (text : Bytes) :
    (Cause.unknownByte b (text.take excerptWindow)).message =
      (Cause.unknownByte b text).message := by
  rw [Cause.message, Cause.message, excerpt_window]

/-! ## Keys and brackets -/

theorem readKey_agree (role : KeyRole) (h : source.At start position rest) :
    source.Agree start Cause.message (source.Reaches start) (readKey source role position)
      (Format.readKey role rest) := by
  obtain ⟨solid, hnext, hsolid⟩ := nextToken_at h
  rw [readKey, Format.readKey, nextToken_bind hnext]
  refine agree_byte_or_end hsolid (fun b rest hleft hsolid => ?_) fun hleft hsolid => ?_
  · rw [hleft]
    dsimp only
    by_cases hquote : b = Byte.quote
    · rw [if_pos hquote, if_neg (not_not_intro hquote), hsolid.tail.find?]
      have hkey := hsolid.tail.dropWhile (· != Byte.quote)
      cases hafter : rest.dropWhile (· != Byte.quote) with
      | nil =>
          rw [List.isEmpty_nil, if_pos rfl, hsolid.text]
          exact agree_fault_of_message hsolid _ hsolid.size_eq (unterminatedKey_window (b :: rest))
      | cons quote after =>
          rw [hafter] at hkey
          rw [List.isEmpty_cons, if_neg Bool.false_ne_true]
          dsimp only
          by_cases hempty : (rest.takeWhile (· != Byte.quote)).isEmpty = true
          · rw [if_pos hempty, if_pos (add_length_eq_iff.mpr hempty)]
            exact agree_fault hsolid _ (by rw [add_length_eq_iff.mpr hempty])
          · have hlength : solid + 1 + (rest.takeWhile (· != Byte.quote)).length - solid - 1 =
                (rest.takeWhile (· != Byte.quote)).length := by omega
            rw [if_neg hempty, if_neg (mt add_length_eq_iff.mp hempty), hlength,
              hsolid.tail.text, ← List.prefix_iff_eq_take.mp (List.takeWhile_prefix _)]
            exact ⟨rfl, hkey.tail⟩
    · rw [if_neg hquote, if_pos hquote, hsolid.text]
      exact agree_fault_of_message hsolid _ rfl (expectedKey_window role (b :: rest))
  · rw [hleft]
    exact agree_fault hsolid _ rfl

theorem readOpen_agree (opening : Opening) (key : Bytes) (h : source.At start position rest) :
    source.Agree start Cause.message (source.At start) (readOpen source opening key position)
      (Format.readOpen opening key rest) := by
  obtain ⟨solid, hnext, hsolid⟩ := nextToken_at h
  rw [readOpen, Format.readOpen, nextToken_bind hnext]
  refine agree_byte_or_end hsolid (fun b rest hleft hsolid => ?_) fun hleft hsolid => ?_
  · rw [hleft]
    dsimp only
    by_cases hopen : b = Byte.openBracket
    · rw [if_pos hopen, if_pos hopen]
      exact hsolid.tail
    · rw [if_neg hopen, if_neg hopen]
      exact agree_fault hsolid _ rfl
  · rw [hleft]
    exact agree_fault hsolid _ rfl

end JsonTable.Format.Cursor
