/-!
# Byte strings

Keys, cells, separators and messages may hold any bytes at all, so every text
of the library is a list of bytes, and every position and length counts bytes.
-/

namespace JsonTable

/-- A text: any bytes, not necessarily UTF-8. -/
abbrev Bytes := List UInt8

namespace Byte

abbrev backspace : UInt8 := 0x08
abbrev tab : UInt8 := 0x09
abbrev lineFeed : UInt8 := 0x0a
abbrev formFeed : UInt8 := 0x0c
abbrev carriageReturn : UInt8 := 0x0d
abbrev space : UInt8 := 0x20
abbrev quote : UInt8 := 0x22
abbrev hash : UInt8 := 0x23
abbrev plus : UInt8 := 0x2b
abbrev comma : UInt8 := 0x2c
abbrev minus : UInt8 := 0x2d
abbrev dot : UInt8 := 0x2e
abbrev slash : UInt8 := 0x2f
abbrev zero : UInt8 := 0x30
abbrev colon : UInt8 := 0x3a
abbrev equals : UInt8 := 0x3d
abbrev openBracket : UInt8 := 0x5b
abbrev backslash : UInt8 := 0x5c
abbrev closeBracket : UInt8 := 0x5d
abbrev caret : UInt8 := 0x5e
abbrev openBrace : UInt8 := 0x7b
abbrev closeBrace : UInt8 := 0x7d
abbrev tilde : UInt8 := 0x7e

def isDigit (b : UInt8) : Bool :=
  0x30 ≤ b && b ≤ 0x39

/-- The lower-case digit of a number below sixteen. -/
def hexDigit (n : UInt8) : UInt8 :=
  if n < 10 then 0x30 + n else 0x57 + n

def hexValue? (b : UInt8) : Option Nat :=
  if 0x30 ≤ b && b ≤ 0x39 then some (b.toNat - 0x30)
  else if 0x61 ≤ b && b ≤ 0x66 then some (b.toNat - 0x57)
  else if 0x41 ≤ b && b ≤ 0x46 then some (b.toNat - 0x37)
  else none

end Byte

namespace Bytes

/-- The bytes of a text whose characters are all ASCII. -/
def ascii (text : String) : Bytes :=
  text.toList.map fun c => UInt8.ofNat c.toNat

def decimal (n : Nat) : Bytes :=
  (Nat.toDigits 10 n).map fun c => UInt8.ofNat c.toNat

/-- A text between two double quotes, with nothing escaped. -/
def inQuotes (text : Bytes) : Bytes :=
  Byte.quote :: text ++ [Byte.quote]

def excerpt (limit : Nat) (text : Bytes) : Bytes :=
  if text.length ≤ limit then text else text.take limit ++ ascii "..."

/-- Whether `part` stands somewhere in `text`. The empty text stands in every text. -/
def occursIn (part : Bytes) : Bytes → Bool
  | [] => part.isEmpty
  | b :: rest => part.isPrefixOf (b :: rest) || occursIn part rest

/-- What follows `lead`, if `text` begins with it. -/
def after? (lead text : Bytes) : Option Bytes :=
  if lead.isPrefixOf text then some (text.drop lead.length) else none

/-- The bytes before the first NUL, which is where a NUL-terminated text ends. -/
def beforeNul (text : Bytes) : Bytes :=
  text.takeWhile (· != 0)

theorem occursIn_iff (part text : Bytes) : occursIn part text = true ↔ part <:+: text := by
  induction text with
  | nil => simp [occursIn]
  | cons b rest ih =>
      rw [occursIn, Bool.or_eq_true, List.isPrefixOf_iff_prefix, ih, List.infix_cons_iff]

theorem after?_eq_some_iff {lead text rest : Bytes} :
    after? lead text = some rest ↔ text = lead ++ rest := by
  unfold after?
  constructor
  · intro h
    split at h
    · next hp =>
        obtain ⟨tail, rfl⟩ := List.isPrefixOf_iff_prefix.mp hp
        simp_all
    · cases h
  · rintro rfl
    simp

theorem after?_singleton_eq_none_iff {b : UInt8} {text : Bytes} :
    after? [b] text = none ↔ text.head? ≠ some b := by
  cases text with
  | nil => simp [after?]
  | cons c text => simp [after?, eq_comm (a := b)]

end Bytes

end JsonTable
