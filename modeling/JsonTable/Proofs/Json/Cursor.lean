import JsonTable.Json.Cursor
import JsonTable.Proofs.Cursor
import Mathlib.Data.List.DropRight

/-!
# Reading JSON by position and by what is left

Every reader by position agrees with the one on the bytes that are left. So a text is read as
`readWhole` reads it, and what is known of that function holds of `Document.read`.
-/

namespace JsonTable.Json.Cursor

open Bytes

variable {source : Source} {start position : Nat} {rest : Bytes}

theorem skipSpaces_at (h : source.At start position rest) :
    ∃ next, skipSpaces source position = .ok next ∧
      source.At start next (Json.skipSpaces rest) :=
  ⟨_, h.skipWhile isSpace, h.dropWhile isSpace⟩

theorem skipSpaces_bind {α : Type} {next : Nat} (h : skipSpaces source position = .ok next)
    (goOn : Nat → Scan α) : skipSpaces source position >>= goOn = goOn next := by
  rw [h]
  rfl

/-! ## Strings -/

section Strings

variable {opening : Nat} {literal text : Bytes}

theorem readHexDigits_agree (value : Nat) {escape missing : Nat} {lead digits : Bytes}
    (hlead : source.At start escape lead) (hmissing : missing ≤ 4)
    (h : source.At start (escape + 6 - missing) digits) :
    source.Agree start Cause.message
      (fun here left => here = left.1 ∧ source.At start (escape + 6) left.2)
      (readHexDigits source escape missing value)
      (Json.readHexDigits lead missing value digits) := by
  induction missing generalizing value digits with
  | zero => exact ⟨rfl, h⟩
  | succ missing ih =>
      have hposition : escape + 6 - (missing + 1) = escape + 5 - missing := by omega
      have hlast : escape + 5 - missing = escape + (5 - missing) := by omega
      have hnext : escape + 5 - missing + 1 = escape + 6 - missing := by omega
      rw [hposition] at h
      cases digits with
      | nil =>
          rw [readHexDigits, Json.readHexDigits]
          simp only [if_neg h.not_lt_size]
          exact agree_fault hlead _ hlast
      | cons b digits =>
          rw [readHexDigits, Json.readHexDigits]
          simp only [if_pos h.lt_size, h.byte_bind]
          cases hdigit : Byte.hexValue? b with
          | none => exact agree_fault hlead _ (by omega)
          | some digit => exact ih _ (by omega) (hnext ▸ h.tail)

/-- Every escape has six bytes. -/
theorem readEscape_agree {digits : Bytes}
    (h : source.At start position (Byte.backslash :: pointLetter :: digits)) :
    source.Agree start Cause.message
      (fun here left => here = (left.1, position + 6) ∧ source.At start (position + 6) left.2)
      (readEscape source position)
      (Json.readHexDigits (Byte.backslash :: pointLetter :: digits) 4 0 digits) := by
  have hafter : after? escapeLead (Byte.backslash :: pointLetter :: digits) = some digits :=
    after?_eq_some_iff.mpr rfl
  obtain ⟨hlead, hdigits⟩ := h.hasAt_of_after? hafter
  have hread := readHexDigits_agree 0 h (Nat.le_refl 4) hdigits
  rw [readEscape, if_pos hlead, ← bind_pure (Json.readHexDigits _ 4 0 digits)]
  refine hread.bind fun value left hvalue => ?_
  exact ⟨congrArg (·, position + 6) hvalue.1, hvalue.2⟩

theorem readPoint_agree {digits : Bytes}
    (h : source.At start position (Byte.backslash :: pointLetter :: digits)) :
    source.Agree start Cause.message
      (fun here left => source.Reaches start here left ∧ position + 6 ≤ here.2)
      (readPoint source position)
      (Json.readPoint (Byte.backslash :: pointLetter :: digits) digits) := by
  refine (readEscape_agree h).bind ?_
  rintro _ ⟨high, rest⟩ ⟨rfl, hrest⟩
  by_cases hlow : isLowSurrogate high = true
  · simp only [if_pos hlow]
    exact agree_fault h _ rfl
  · by_cases hhigh : isHighSurrogate high = true
    · simp only [if_neg hlow, if_pos hhigh]
      cases hafter : after? [Byte.backslash, pointLetter] rest with
      | none =>
          have hlead := hrest.not_hasAt hafter
          rw [escapeLead, hlead]
          exact agree_fault h _ rfl
      | some lowDigits =>
          obtain ⟨hlead, _⟩ := hrest.hasAt_of_after? hafter
          cases after?_eq_some_iff.mp hafter
          rw [escapeLead, if_pos hlead]
          refine (readEscape_agree hrest).bind ?_
          rintro _ ⟨low, rest⟩ ⟨rfl, hrest⟩
          by_cases hlow : isLowSurrogate low = true
          · simp only [if_pos hlow]
            exact ⟨⟨rfl, hrest⟩, Nat.le_add_right _ 6⟩
          · simp only [if_neg hlow]
            exact agree_fault h _ rfl
    · simp only [if_neg hlow, if_neg hhigh]
      exact ⟨⟨rfl, hrest⟩, Nat.le_refl _⟩

/-- Characters are read one after the other until the quote that closes. -/
theorem readCharacters_of_readCharacter {rest : Bytes}
    (hquote : after? [Byte.quote] rest = none) :
    Json.readCharacters literal text rest =
      Json.readCharacter literal rest >>= fun read =>
        Json.readCharacters literal (read.1.reverse ++ text) read.2 := by
  rw [Json.readCharacters, hquote]
  cases Json.readCharacter literal rest with
  | error failure => rfl
  | ok read => rfl

theorem readCharacters_agree {rounds : Nat} (hopening : source.At start opening literal)
    (hrounds : rest.length < rounds) (h : source.At start position rest) :
    source.Agree start Cause.message (source.Reaches start)
      (readCharacters source opening rounds text position)
      (Json.readCharacters literal text rest) := by
  induction rounds generalizing text position rest with
  | zero => exact absurd hrounds (Nat.not_lt_zero _)
  | succ rounds ih =>
      cases rest with
      | nil =>
          rw [readCharacters, readCharacters_of_readCharacter rfl]
          simp only [if_neg h.not_lt_size]
          exact agree_faultToEnd hopening _ h.eq_size
      | cons b rest =>
          rw [List.length_cons] at hrounds
          rw [readCharacters]
          simp only [if_pos h.lt_size, h.byte_bind]
          by_cases hquote : b = Byte.quote
          · have hafter : after? [Byte.quote] (b :: rest) = some rest :=
              after?_eq_some_iff.mpr (congrArg (· :: rest) hquote)
            rw [if_pos hquote, Json.readCharacters, hafter]
            exact ⟨rfl, h.tail⟩
          · have hafter : after? [Byte.quote] (b :: rest) = none :=
              after?_singleton_eq_none_iff.mpr fun hhead => hquote (Option.some.inj hhead)
            rw [if_neg hquote, readCharacters_of_readCharacter hafter]
            unfold Json.readCharacter
            dsimp only
            by_cases hcontrol : b < 0x20
            · rw [if_pos hcontrol, if_pos hcontrol]
              exact agree_fault h _ rfl
            by_cases hraw : b ≠ Byte.backslash
            · rw [if_neg hcontrol, if_neg hcontrol, if_pos hraw, if_pos hraw]
              exact ih (Nat.lt_of_succ_lt_succ hrounds) h.tail
            rw [if_neg hcontrol, if_neg hcontrol, if_neg hraw, if_neg hraw]
            cases rest with
            | nil =>
                rw [if_neg h.tail.not_lt_size]
                exact agree_faultToEnd hopening _ h.tail.eq_size
            | cons letter rest =>
                rw [List.length_cons] at hrounds
                rw [if_pos h.tail.lt_size, h.tail.byte_bind]
                dsimp only
                by_cases hpoint : letter = pointLetter
                · obtain rfl := Decidable.not_not.mp hraw
                  subst hpoint
                  rw [if_pos rfl, if_pos rfl, bind_assoc]
                  refine (readPoint_agree h).bind ?_
                  rintro ⟨point, next⟩ ⟨_, rest'⟩ ⟨⟨rfl, hnext⟩, hlong⟩
                  have hsize := h.size_eq.symm.trans hnext.size_eq
                  simp only [List.length_cons] at hsize hlong
                  exact ih (show rest'.length < rounds by omega) hnext
                · rw [if_neg hpoint, if_neg hpoint]
                  cases hshort : shortEscape? letter with
                  | none => exact agree_fault h _ rfl
                  | some c => exact ih (show rest.length < rounds by omega) h.tail.tail

theorem readLiteral_agree {body : Bytes} (h : source.At start position (Byte.quote :: body)) :
    source.Agree start Cause.message (source.Reaches start) (readLiteral source position)
      (Json.readLiteral body) := by
  have hsize := h.size_eq
  rw [List.length_cons] at hsize
  exact readCharacters_agree h (by omega) h.tail

end Strings

/-! ## Numbers -/

section Numbers

variable {number taken text : Bytes}

/-- What was taken of a number ends at the position reached. -/
def Taken (number : Bytes) (position next : Nat) (left : Bytes × Bytes) : Prop :=
  number = left.1 ++ left.2 ∧ next = position + left.1.length

theorem Taken.at_next {next : Nat} {left : Bytes × Bytes} (h : source.At start position number)
    (htaken : Taken number position next left) : source.At start next left.2 := by
  obtain ⟨rfl, rfl⟩ := htaken
  exact h.append

theorem signed_at (h : source.At start position text) (isSign : UInt8 → Bool) :
    ∃ sign rest, splitSign isSign text = (sign, rest) ∧ text = sign ++ rest ∧
      (if text.head?.any isSign = true then position + 1 else position) =
        position + sign.length := by
  cases text with
  | nil => exact ⟨[], [], rfl, rfl, rfl⟩
  | cons b text =>
      rw [splitSign, List.head?_cons, Option.any_some]
      by_cases hsign : isSign b = true
      · rw [if_pos hsign, if_pos hsign]
        exact ⟨[b], text, rfl, rfl, rfl⟩
      · rw [if_neg hsign, if_neg hsign]
        exact ⟨[], b :: text, rfl, rfl, rfl⟩

theorem readInteger_agree (h : source.At start position number) :
    source.Agree start Cause.message (Taken number position) (readInteger source position)
      (Json.readInteger number) := by
  obtain ⟨sign, rest, hsplit, rfl, hwhole⟩ := signed_at h (· == Byte.minus)
  have hrest := h.append
  rw [readInteger, Json.readInteger, h.holds_bind, hsplit]
  simp only [hwhole, hrest.holds_bind]
  cases rest with
  | nil => exact agree_fault h _ (Nat.add_assoc _ _ _)
  | cons b rest =>
      rw [List.head?_cons, Option.any_some]
      by_cases hdigit : Byte.isDigit b = true
      · rw [if_pos hdigit, hrest.byte_bind]
        by_cases hzero : b = Byte.zero
        · simp only [if_pos hzero]
          exact ⟨by simp, by simp [Nat.add_assoc]⟩
        · simp only [if_neg hzero, if_pos hdigit, hrest.skipWhile]
          refine ⟨?_, by simp [Nat.add_assoc]⟩
          rw [List.append_assoc, List.takeWhile_append_dropWhile]
      · have hzero : b ≠ Byte.zero := by
          rintro rfl
          exact hdigit rfl
        simp only [if_neg hdigit, if_neg hzero]
        exact agree_fault h _ (Nat.add_assoc _ _ _)

theorem readFraction_agree (h : source.At start position (taken ++ text)) :
    source.Agree start Cause.message (Taken (taken ++ text) position)
      (readFraction source position (position + taken.length))
      (Json.readFraction (taken ++ text) taken text) := by
  have htext := h.append
  rw [readFraction, htext.holds_bind]
  cases text with
  | nil => exact ⟨rfl, rfl⟩
  | cons b rest =>
      rw [Json.readFraction, List.head?_cons, Option.any_some]
      by_cases hdot : b = Byte.dot
      · rw [if_pos hdot, if_pos (beq_iff_eq.mpr hdot), htext.tail.skipWhile_bind]
        by_cases hempty : (rest.takeWhile Byte.isDigit).isEmpty = true
        · simp only [if_pos hempty, if_pos (add_length_eq_iff.mpr hempty)]
          refine agree_fault h _ ?_
          rw [add_length_eq_iff.mpr hempty, Nat.add_assoc]
        · simp only [if_neg hempty, if_neg (mt add_length_eq_iff.mp hempty)]
          refine ⟨?_, ?_⟩
          · rw [List.append_assoc, List.cons_append, List.takeWhile_append_dropWhile]
          · rw [List.length_append, List.length_cons]
            omega
      · rw [if_neg hdot, if_neg (mt beq_iff_eq.mp hdot)]
        exact ⟨rfl, rfl⟩

theorem readExponent_agree (h : source.At start position (taken ++ text)) :
    source.Agree start Cause.message (Taken (taken ++ text) position)
      (readExponent source position (position + taken.length))
      (Json.readExponent (taken ++ text) taken text) := by
  have htext := h.append
  rw [readExponent, htext.holds_bind]
  cases text with
  | nil => exact ⟨rfl, rfl⟩
  | cons b rest =>
      have hletter : (b == 0x65 || b == 0x45) = true ↔ b = 0x65 ∨ b = 0x45 := by
        rw [Bool.or_eq_true, beq_iff_eq, beq_iff_eq]
      rw [Json.readExponent, List.head?_cons, Option.any_some]
      by_cases hexponent : b = 0x65 ∨ b = 0x45
      · obtain ⟨sign, digits, hsplit, rfl, hsigned⟩ :=
          signed_at htext.tail fun c => c == Byte.plus || c == Byte.minus
        rw [if_pos hexponent, if_pos (hletter.mpr hexponent), htext.tail.holds_bind, hsplit]
        have hdigits := htext.tail.append
        simp only [Nat.add_assoc, Nat.reduceAdd] at hsigned hdigits ⊢
        simp only [hsigned, hdigits.skipWhile_bind]
        by_cases hempty : (digits.takeWhile Byte.isDigit).isEmpty = true
        · simp only [if_pos hempty, if_pos (add_length_eq_iff.mpr hempty)]
          exact agree_fault h _ (add_length_eq_iff.mpr hempty)
        · simp only [if_neg hempty, if_neg (mt add_length_eq_iff.mp hempty)]
          refine ⟨?_, ?_⟩
          · rw [List.append_assoc, List.cons_append, List.append_assoc,
              List.takeWhile_append_dropWhile]
          · rw [List.length_append, List.length_cons, List.length_append]
            omega
      · rw [if_neg hexponent, if_neg (mt hletter.mp hexponent)]
        exact ⟨rfl, rfl⟩

theorem readNumber_agree (h : source.At start position number) :
    source.Agree start Cause.message (source.Reaches start) (readNumber source position)
      (Json.readNumber number) := by
  refine (readInteger_agree h).bind ?_
  rintro _ ⟨whole, rest⟩ ⟨rfl, rfl⟩
  refine (readFraction_agree h).bind ?_
  rintro _ ⟨decimal, afterDecimal⟩ ⟨hdecimal, rfl⟩
  rw [hdecimal] at h ⊢
  refine (readExponent_agree h).bind ?_
  rintro _ ⟨taken, afterTaken⟩ ⟨htaken, rfl⟩
  rw [htaken] at h ⊢
  have hafter := h.append
  rw [hafter.holds_bind]
  by_cases hdigit : afterTaken.head?.any Byte.isDigit = true
  · simp only [if_pos hdigit]
    exact agree_fault h _ (Nat.add_assoc _ _ _)
  · simp only [if_neg hdigit, h.text, Nat.add_sub_cancel_left, List.take_left]
    exact ⟨rfl, hafter⟩

end Numbers

/-! ## Sequences -/

section Sequences

variable {α : Type} {enclosure : Enclosure} {opening : Nat} {opened : Bytes}
  {readItem : List α → Nat → Scan (α × Nat)} {readItemLeft : List α → Bytes → Reading (α × Bytes)}

theorem readItems_agree {rounds : Nat} {done : List α} (hopening : source.At start opening opened)
    (hitem : ∀ done position rest, source.At start position rest →
      source.Agree start Cause.message (source.Reaches start) (readItem done position)
        (readItemLeft done rest))
    (h : source.At start position rest) :
    source.Agree start Cause.message (source.Reaches start)
      (readItems source enclosure opening readItem rounds done position)
      (Json.readItems enclosure opened readItemLeft rounds done rest) := by
  induction rounds generalizing done position rest with
  | zero => exact agree_faultToEnd hopening _ rfl
  | succ rounds ih =>
      rw [readItems, Json.readItems]
      refine (hitem done position rest h).bind ?_
      rintro ⟨item, next⟩ ⟨_, after⟩ ⟨rfl, hafter⟩
      obtain ⟨solid, hskip, hsolid⟩ := skipSpaces_at hafter
      simp only [skipSpaces_bind hskip]
      refine agree_byte_or_end hsolid (fun b left hleft hsolid => ?_) fun hleft hsolid => ?_
      · rw [hleft]
        dsimp only
        by_cases hclose : b = enclosure.close
        · rw [if_pos hclose, if_pos hclose]
          exact ⟨rfl, hsolid.tail⟩
        by_cases hcomma : b = Byte.comma
        · rw [if_neg hclose, if_neg hclose, if_pos hcomma, if_pos hcomma]
          exact ih hsolid.tail
        · rw [if_neg hclose, if_neg hclose, if_neg hcomma, if_neg hcomma]
          exact agree_fault hsolid _ rfl
      · rw [hleft]
        exact agree_faultToEnd hopening _ hsolid.eq_size

/-- Blanks before an item may be skipped before it is read, and are if there is none. -/
theorem readSequence_agree {opener : UInt8} {body : Bytes}
    (h : source.At start position (opener :: body))
    (hitem : ∀ done position rest, source.At start position rest →
      source.Agree start Cause.message (source.Reaches start) (readItem done position)
        (readItemLeft done rest))
    (hblanks : ∀ done rest, readItemLeft done (Json.skipSpaces rest) = readItemLeft done rest) :
    source.Agree start Cause.message (source.Reaches start)
      (readSequence source enclosure position readItem)
      (Json.readSequence enclosure (opener :: body) readItemLeft body) := by
  obtain ⟨solid, hskip, hsolid⟩ := skipSpaces_at h.tail
  rw [readSequence, Json.readSequence, skipSpaces_bind hskip, hsolid.holds_byte]
  cases hafter : after? [enclosure.close] (Json.skipSpaces body) with
  | some rest => exact ⟨rfl, (hsolid.hasAt_of_after? hafter).2⟩
  | none =>
      have hrounds : source.size - position = body.length + 1 := by
        rw [h.size_eq, List.length_cons, Nat.add_sub_cancel_left]
      have hfirst : Json.readItems enclosure (opener :: body) readItemLeft (body.length + 1) []
          body = Json.readItems enclosure (opener :: body) readItemLeft (body.length + 1) []
            (Json.skipSpaces body) := by
        rw [Json.readItems, Json.readItems, hblanks]
      rw [hrounds]
      exact hfirst ▸ readItems_agree h hitem hsolid

end Sequences

/-! ## Values -/

theorem skipSpaces_skipSpaces (text : Bytes) :
    Json.skipSpaces (Json.skipSpaces text) = Json.skipSpaces text :=
  List.dropWhile_idempotent isSpace text

section Values

variable {readNested : Nat → Scan (Document × Nat)}
  {readNestedLeft : Bytes → Reading (Document × Bytes)}

theorem readMember_agree {opening : Nat} {opened : Bytes} {members : Keyed Document}
    (hopening : source.At start opening opened)
    (hnested : ∀ position rest, source.At start position rest →
      source.Agree start Cause.message (source.Reaches start) (readNested position)
        (readNestedLeft rest))
    (h : source.At start position rest) :
    source.Agree start Cause.message (source.Reaches start)
      (readMember source readNested opening members position)
      (Json.readMember readNestedLeft opened members rest) := by
  obtain ⟨solid, hskip, hsolid⟩ := skipSpaces_at h
  rw [readMember, Json.readMember, skipSpaces_bind hskip]
  refine agree_byte_or_end hsolid (fun b body hleft hsolid => ?_) fun hleft hsolid => ?_
  · rw [hleft]
    dsimp only
    by_cases hquote : b = Byte.quote
    · subst hquote
      rw [if_pos rfl, if_neg (not_not_intro rfl)]
      refine ((readLiteral_agree hsolid.from_here).widen hsolid.start_le).bind ?_
      rintro ⟨key, next⟩ ⟨_, after⟩ ⟨⟨rfl, hafter⟩, hle⟩
      by_cases hknown : (members.any fun member => member.1 == key) = true
      · have hsize : solid + (body.length + 1) = next + after.length :=
          hsolid.size_eq.symm.trans hafter.size_eq
        have hle : solid ≤ next := hle
        simp only [if_pos hknown]
        exact agree_fault hsolid _ (by omega)
      · obtain ⟨solid, hskip, hsolid⟩ := skipSpaces_at hafter
        simp only [if_neg hknown, skipSpaces_bind hskip, hsolid.holds_byte]
        cases hcolon : after? [Byte.colon] (Json.skipSpaces after) with
        | none => exact agree_fault hsolid _ rfl
        | some body =>
            refine (hnested _ _ (hsolid.hasAt_of_after? hcolon).2).bind ?_
            rintro ⟨value, next⟩ ⟨_, rest⟩ ⟨rfl, hrest⟩
            exact ⟨rfl, hrest⟩
    · rw [if_neg hquote, if_pos hquote]
      exact agree_fault hsolid _ rfl
  · rw [hleft]
    exact agree_faultToEnd hopening _ hsolid.eq_size

theorem readWord_agree {b : UInt8} (h : source.At start position (b :: rest)) :
    source.Agree start Cause.message (source.Reaches start) (readWord source position)
      (Json.readWord (b :: rest)) := by
  rw [readWord, Json.readWord]
  induction valueWords with
  | nil =>
      rw [List.find?_nil, List.findSome?_nil]
      simp only [h.byte_bind]
      exact agree_fault h _ rfl
  | cons entry words ih =>
      rw [List.find?_cons, List.findSome?_cons]
      cases hafter : after? entry.1 (b :: rest) with
      | none =>
          simp only [h.not_hasAt hafter, hafter, Option.map_none]
          exact ih
      | some more =>
          obtain ⟨hword, hmore⟩ := h.hasAt_of_after? hafter
          simp only [hword, hafter, Option.map_some]
          exact ⟨rfl, hmore⟩

theorem readBegun_agree {b : UInt8} (h : source.At start position (b :: rest))
    (hnested : ∀ position rest, source.At start position rest →
      source.Agree start Cause.message (source.Reaches start) (readNested position)
        (readNestedLeft rest))
    (hblanks : ∀ rest, readNestedLeft (Json.skipSpaces rest) = readNestedLeft rest) :
    source.Agree start Cause.message (source.Reaches start)
      (readBegun source readNested b position) (Json.readBegun readNestedLeft b rest) := by
  rw [readBegun, Json.readBegun]
  by_cases hbrace : b = Byte.openBrace
  · have hmembers : source.Agree start Cause.message (source.Reaches start)
        (readSequence source .object position (readMember source readNested position))
        (Json.readSequence .object (b :: rest) (Json.readMember readNestedLeft (b :: rest)) rest) :=
      readSequence_agree h (fun _ _ _ hrest => readMember_agree h hnested hrest)
        fun _ _ => by rw [Json.readMember, Json.readMember, skipSpaces_skipSpaces]
    rw [if_pos hbrace, if_pos hbrace]
    refine hmembers.bind ?_
    rintro ⟨members, next⟩ ⟨_, after⟩ ⟨rfl, hafter⟩
    cases hvalue : Document.ofMembers members with
    | ok value =>
        simp only [hvalue]
        exact ⟨rfl, hafter⟩
    | error misuse =>
        simp only [hvalue]
        exact Eq.refl misuse
  rw [if_neg hbrace, if_neg hbrace]
  by_cases hbracket : b = Byte.openBracket
  · rw [if_pos hbracket, if_pos hbracket]
    refine (readSequence_agree h (fun _ => hnested) fun _ => hblanks).bind ?_
    rintro ⟨items, next⟩ ⟨_, after⟩ ⟨rfl, hafter⟩
    exact ⟨rfl, hafter⟩
  rw [if_neg hbracket, if_neg hbracket]
  by_cases hquote : b = Byte.quote
  · rw [if_pos hquote, if_pos hquote]
    subst hquote
    refine (readLiteral_agree h).bind ?_
    rintro ⟨text, next⟩ ⟨_, after⟩ ⟨rfl, hafter⟩
    exact ⟨rfl, hafter⟩
  rw [if_neg hquote, if_neg hquote]
  by_cases hnumber : b = Byte.minus ∨ Byte.isDigit b = true
  · rw [if_pos hnumber, if_pos hnumber]
    refine (readNumber_agree h).bind ?_
    rintro ⟨text, next⟩ ⟨_, after⟩ ⟨rfl, hafter⟩
    exact ⟨rfl, hafter⟩
  · rw [if_neg hnumber, if_neg hnumber]
    exact readWord_agree h

theorem readValue_skipSpaces (levels : Nat) (text : Bytes) :
    Json.readValue levels (Json.skipSpaces text) = Json.readValue levels text := by
  cases levels with
  | zero => rw [Json.readValue, Json.readValue, skipSpaces_skipSpaces]
  | succ levels => rw [Json.readValue, Json.readValue, skipSpaces_skipSpaces]

theorem readValue_agree (levels : Nat) (h : source.At start position rest) :
    source.Agree start Cause.message (source.Reaches start) (readValue source levels position)
      (Json.readValue levels rest) := by
  induction levels generalizing position rest with
  | zero =>
      obtain ⟨solid, hskip, hsolid⟩ := skipSpaces_at h
      rw [readValue, Json.readValue, skipSpaces_bind hskip]
      cases hleft : Json.skipSpaces rest with
      | nil =>
          rw [hleft] at hsolid
          rw [if_neg hsolid.not_lt_size]
          exact agree_fault hsolid _ rfl
      | cons b left =>
          rw [hleft] at hsolid
          rw [if_pos hsolid.lt_size]
          exact agree_fault hsolid _ rfl
  | succ levels ih =>
      obtain ⟨solid, hskip, hsolid⟩ := skipSpaces_at h
      rw [readValue, Json.readValue, skipSpaces_bind hskip]
      refine agree_byte_or_end hsolid (fun b left hleft hsolid => ?_) fun hleft hsolid => ?_
      · rw [hleft]
        exact readBegun_agree hsolid (fun _ _ => ih) (readValue_skipSpaces levels)
      · rw [hleft]
        exact agree_fault hsolid _ rfl

end Values

theorem readSpaced_agree (h : source.At start position rest) :
    source.Agree start Cause.message (source.Reaches start) (readSpaced source position)
      (Json.readSpaced rest) := by
  refine (readValue_agree _ h).bind ?_
  rintro ⟨value, next⟩ ⟨_, after⟩ ⟨rfl, hafter⟩
  obtain ⟨solid, hskip, hsolid⟩ := skipSpaces_at hafter
  simp only [skipSpaces_bind hskip]
  exact ⟨rfl, hsolid⟩

theorem readWhole_agree (h : source.At start position rest) :
    source.Agree start Cause.message (fun here left => here = left) (readWhole source position)
      (Json.readWhole rest) := by
  refine (readSpaced_agree h).bind ?_
  rintro ⟨value, next⟩ ⟨_, after⟩ ⟨rfl, hafter⟩
  cases after with
  | nil =>
      simp only [if_neg hafter.not_lt_size]
      exact Eq.refl value
  | cons b after =>
      simp only [if_pos hafter.lt_size]
      exact agree_fault hafter _ rfl

end JsonTable.Json.Cursor

namespace JsonTable.Document

open Json

variable {report : Report} {start : Nat}

/-- From past the end nothing is read, and the error there cannot be recorded. -/
theorem readSpaced_past_end {source : Source} (h : source.size < start) :
    Cursor.readSpaced source start =
      .error (.error start (start + 1) Cause.expectedValue.message) := by
  have hlt : ¬ start < source.size := Nat.not_lt_of_lt h
  have hskip : Cursor.skipSpaces source start = .ok start := by
    rw [Cursor.skipSpaces, Source.skipWhile, dif_neg hlt]
    rfl
  rw [Cursor.readSpaced, Cursor.readValue, Cursor.skipSpaces_bind hskip, if_neg hlt]
  rfl

theorem readAt_eq_settle (report : Report) (start : Nat) :
    readAt report start =
      report.settle start Cause.message ((readSpaced (report.source.bytes.drop start)).map
        fun (value, rest) => (value, report.source.size - rest.length)) := by
  by_cases hstart : start ≤ report.source.size
  · refine Report.conclude_eq_settle ((Cursor.readSpaced_agree (Source.at_start hstart)).mono ?_)
    rintro ⟨value, next⟩ ⟨_, rest⟩ ⟨rfl, hrest⟩
    have hnext : next = report.source.size - rest.length := by
      rw [hrest.size_eq, Nat.add_sub_cancel]
    rw [hnext]
  · have hpast := Nat.lt_of_not_le hstart
    have hdrop : report.source.bytes.drop start = [] :=
      List.drop_eq_nil_of_le (report.source.size_eq ▸ Nat.le_of_lt hpast)
    have hleft : readSpaced [] = .error (faultAt [] 1 .expectedValue) := rfl
    have hposition : report.positionOf start 0 = start := by
      rw [Report.positionOf]
      omega
    rw [readAt, readSpaced_past_end hpast, hdrop, hleft]
    simp only [Report.conclude, Except.map, faultAt, List.length_nil, Report.settle, hposition]

theorem read_eq_settle (report : Report) :
    read report =
      match Bytes.after? Utf8.byteOrderMark report.source.bytes with
      | some body => report.settle Utf8.byteOrderMark.length Cause.message (readWhole body)
      | none => report.settle 0 Cause.message (readWhole report.source.bytes) := by
  have hzero := Source.at_start (Nat.zero_le report.source.size)
  have hread {start : Nat} {body : Bytes} (h : report.source.At start start body) :
      report.conclude (Cursor.readWhole report.source start) =
        report.settle start Cause.message (readWhole body) := by
    have hsame : (readWhole body).map id = readWhole body := by rw [Except.map_id, id]
    exact hsame ▸ Report.conclude_eq_settle (Cursor.readWhole_agree h)
  rw [read]
  cases hmark : Bytes.after? Utf8.byteOrderMark report.source.bytes with
  | none =>
      rw [hzero.not_hasAt hmark]
      exact hread hzero
  | some body =>
      obtain ⟨hlead, hbody⟩ := hzero.hasAt_of_after? hmark
      rw [Nat.zero_add] at hbody
      rw [if_pos hlead]
      exact hread hbody.from_here

end JsonTable.Document
