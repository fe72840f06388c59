import JsonTable.Bytes

/-!
# UTF-8

`encode` writes a code point in one to four bytes. A text is well-formed when
it is a sequence of encoded characters: a character is never a surrogate and
never above U+10FFFF, and `encode` has one form for each, so overlong forms
are excluded without a rule of their own.
-/

namespace JsonTable.Utf8

def encode (point : Nat) : Bytes :=
  if point < 0x80 then [UInt8.ofNat point]
  else if point < 0x800 then
    [UInt8.ofNat (0xc0 + point / 0x40), UInt8.ofNat (0x80 + point % 0x40)]
  else if point < 0x10000 then
    [UInt8.ofNat (0xe0 + point / 0x1000), UInt8.ofNat (0x80 + point / 0x40 % 0x40),
      UInt8.ofNat (0x80 + point % 0x40)]
  else
    [UInt8.ofNat (0xf0 + point / 0x40000), UInt8.ofNat (0x80 + point / 0x1000 % 0x40),
      UInt8.ofNat (0x80 + point / 0x40 % 0x40), UInt8.ofNat (0x80 + point % 0x40)]

def encodeAll (characters : List Char) : Bytes :=
  characters.flatMap fun c => encode c.toNat

/-- Strict UTF-8: the text of some sequence of characters. -/
def WellFormed (text : Bytes) : Prop :=
  ∃ characters, text = encodeAll characters

/-- The mark that may stand before a text to say that it is UTF-8. -/
def byteOrderMark : Bytes :=
  [0xef, 0xbb, 0xbf]

@[simp]
theorem encodeAll_nil : encodeAll [] = [] :=
  rfl

@[simp]
theorem encodeAll_append (cs ds : List Char) :
    encodeAll (cs ++ ds) = encodeAll cs ++ encodeAll ds := by
  simp [encodeAll]

theorem WellFormed.append {s t : Bytes} (hs : WellFormed s) (ht : WellFormed t) :
    WellFormed (s ++ t) := by
  obtain ⟨cs, rfl⟩ := hs
  obtain ⟨ds, rfl⟩ := ht
  exact ⟨cs ++ ds, by simp⟩

end JsonTable.Utf8
