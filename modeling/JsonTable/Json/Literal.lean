import JsonTable.Json.Cause
import JsonTable.Utf8

/-!
# String literals

A literal runs from a double quote to the next one that is not escaped. Raw
bytes below 0x20 are refused; all others stand for themselves, whether they
are UTF-8 or not. An escape `\u` with four hexadecimal digits stands for the
UTF-8 form of its code point; two of them stand for one code point when they
are a high and a low surrogate, and a surrogate on its own is refused.
-/

namespace JsonTable.Json

/-- The letter that begins the digits of a code point escape. -/
def pointLetter : UInt8 :=
  0x75

/-- What a one-letter escape stands for. -/
def shortEscape? (letter : UInt8) : Option UInt8 :=
  if letter = Byte.quote then some Byte.quote
  else if letter = Byte.backslash then some Byte.backslash
  else if letter = Byte.slash then some Byte.slash
  else if letter = 0x62 then some Byte.backspace
  else if letter = 0x66 then some Byte.formFeed
  else if letter = 0x6e then some Byte.lineFeed
  else if letter = 0x72 then some Byte.carriageReturn
  else if letter = 0x74 then some Byte.tab
  else none

def isHighSurrogate (point : Nat) : Bool :=
  0xd800 ≤ point && point ≤ 0xdbff

def isLowSurrogate (point : Nat) : Bool :=
  0xdc00 ≤ point && point ≤ 0xdfff

def combineSurrogates (high low : Nat) : Nat :=
  0x10000 + (high - 0xd800) * 0x400 + (low - 0xdc00)

/--
The number written by the next `missing` hexadecimal digits, after digits worth
`value`. `escape` is the escape they belong to, which has four digits in all.
-/
def readHexDigits (escape : Bytes) : (missing value : Nat) → Bytes → Reading (Nat × Bytes)
  | 0, value, rest => .ok (value, rest)
  | missing + 1, _, [] => .error (faultAt escape (5 - missing) .incompleteEscape)
  | missing + 1, value, b :: rest =>
      match Byte.hexValue? b with
      | none => .error (faultAt escape (6 - missing) .badHexDigit)
      | some digit => readHexDigits escape missing (value * 16 + digit) rest

/-- The code point of an escape, of which `digits` follows the letter. -/
def readPoint (escape digits : Bytes) : Reading (Nat × Bytes) := do
  let (high, rest) ← readHexDigits escape 4 0 digits
  if isLowSurrogate high then
    throw (faultAt escape 6 .unpairedLowSurrogate)
  else if isHighSurrogate high then
    match Bytes.after? [Byte.backslash, pointLetter] rest with
    | none => throw (faultAt escape 6 .unpairedHighSurrogate)
    | some lowDigits =>
        let (low, rest) ← readHexDigits rest 4 0 lowDigits
        if isLowSurrogate low then
          return (combineSurrogates high low, rest)
        else throw (faultAt escape 12 .badLowSurrogate)
  else return (high, rest)

/--
The bytes that the next character of a literal stands for. The closing quote is
not a character; the caller looks for it first. `literal` begins at the opening
quote.
-/
def readCharacter (literal : Bytes) : Bytes → Reading (Bytes × Bytes)
  | [] => .error (faultToEnd literal .unterminatedString)
  | b :: rest =>
      if b < 0x20 then .error (faultAt (b :: rest) 1 .controlByte)
      else if b ≠ Byte.backslash then .ok ([b], rest)
      else
        match rest with
        | [] => .error (faultToEnd literal .unterminatedString)
        | letter :: after =>
            if letter = pointLetter then do
              let (point, after) ← readPoint (b :: rest) after
              return (Utf8.encode point, after)
            else
              match shortEscape? letter with
              | some c => .ok ([c], after)
              | none => .error (faultAt (b :: rest) 2 .unknownEscape)

theorem length_readHexDigits {escape text rest : Bytes} {missing value point : Nat}
    (h : readHexDigits escape missing value text = .ok (point, rest)) :
    rest.length + missing = text.length := by
  induction missing generalizing value text with
  | zero => simp_all [readHexDigits]
  | succ missing ih =>
      cases text with
      | nil => simp [readHexDigits] at h
      | cons b text =>
          rw [readHexDigits] at h
          split at h
          · cases h
          · have := ih h
            simp only [List.length_cons]
            omega

theorem length_readPoint_lt {escape digits rest : Bytes} {point : Nat}
    (h : readPoint escape digits = .ok (point, rest)) : rest.length < digits.length := by
  unfold readPoint at h
  cases hhigh : readHexDigits escape 4 0 digits with
  | error f => simp [hhigh, bind, Except.bind] at h
  | ok reading =>
      obtain ⟨high, after⟩ := reading
      have hlen := length_readHexDigits hhigh
      simp only [hhigh, bind, Except.bind] at h
      split at h
      · cases h
      · split at h
        · split at h
          · cases h
          · next lowDigits hafter =>
              have heq := Bytes.after?_eq_some_iff.mp hafter
              cases hlow : readHexDigits after 4 0 lowDigits with
              | error f => simp [hlow] at h
              | ok reading =>
                  have hlowLen := length_readHexDigits hlow
                  simp only [hlow] at h
                  split at h
                  · simp only [pure, Except.pure, Except.ok.injEq, Prod.mk.injEq] at h
                    obtain ⟨_, rfl⟩ := h
                    rw [heq] at hlen
                    simp only [List.cons_append, List.nil_append, List.length_cons] at hlen
                    omega
                  · cases h
        · cases h
          omega

theorem length_readCharacter_lt {literal text character rest : Bytes}
    (h : readCharacter literal text = .ok (character, rest)) : rest.length < text.length := by
  cases text with
  | nil => simp [readCharacter] at h
  | cons b tail =>
      unfold readCharacter at h
      simp only at h
      split at h
      · cases h
      split at h
      · cases h
        simp
      split at h
      · cases h
      · next letter after =>
          split at h
          · cases hpoint : readPoint (b :: letter :: after) after with
            | error f => simp [hpoint, bind, Except.bind] at h
            | ok reading =>
                obtain ⟨point, tail⟩ := reading
                have := length_readPoint_lt hpoint
                simp only [hpoint, bind, Except.bind, pure, Except.pure, Except.ok.injEq,
                  Prod.mk.injEq] at h
                obtain ⟨_, rfl⟩ := h
                simp only [List.length_cons]
                omega
          · split at h
            · cases h
              simp only [List.length_cons]
              omega
            · cases h

/--
The rest of a literal, after characters that stand for `text`, which is kept
backwards. Every character takes at least one byte, so it ends.
-/
def readCharacters (literal text rest : Bytes) : Reading (Bytes × Bytes) :=
  match Bytes.after? [Byte.quote] rest with
  | some after => .ok (text.reverse, after)
  | none =>
      match _h : readCharacter literal rest with
      | .error failure => .error failure
      | .ok (character, rest) => readCharacters literal (character.reverse ++ text) rest
termination_by rest.length
decreasing_by exact length_readCharacter_lt _h

def readLiteral (body : Bytes) : Reading (Bytes × Bytes) :=
  readCharacters (Byte.quote :: body) [] body

end JsonTable.Json
