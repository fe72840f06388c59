import JsonTable.Format.Draft
import JsonTable.Proofs.Format.Tokens
import JsonTable.Proofs.Reports

/-!
# Reading operations

Reading a format and carrying out what was read are interleaved in `draftFrom`,
which matters only for which of two faults is found first. Here the two are taken
apart: `readScript` reads all operations, and `Draft.perform` carries them out.
`readScript_sound` and `readScript_complete` say that a script is read from the
texts that spell it, and from no other.
-/

namespace JsonTable.Format

/-- The tokens that spell an operation. The bracket after a match value is optional. -/
inductive Operation.Spelled : Operation → List Token → Prop where
  | member {key : Bytes} : IsKey key →
      Operation.Spelled (.descend (.member key)) [.dot, .key key, .openBracket]
  | element {key matchKey matchValue : Bytes} {bracket : List Token} : IsKey key →
      IsKey matchKey → IsKey matchValue → bracket = [] ∨ bracket = [.openBracket] →
      Operation.Spelled (.descend (.element key matchKey matchValue))
        ([.slash, .key key, .openBracket, .key matchKey, .equals, .key matchValue] ++ bracket)
  | openItem {key : Bytes} : IsKey key →
      Operation.Spelled (.openItem key) [.plus, .key key, .openBracket]
  | print {key : Bytes} : IsKey key → Operation.Spelled (.print key) [.key key]
  | close : Operation.Spelled .close [.closeBracket]

inductive Spelled : List Operation → List Token → Prop where
  | nil : Spelled [] []
  | cons {operation : Operation} {operations : List Operation} {tokens more : List Token} :
      operation.Spelled tokens → Spelled operations more →
      Spelled (operation :: operations) (tokens ++ more)

/-- Operations, each with the number of bytes left where it begins. -/
abbrev Script := List (Nat × Operation)

/-- The operations of a text, read without regard to what they do. -/
def readScript : (rounds : Nat) → Bytes → Reading Script
  | 0, _ => .ok []
  | rounds + 1, text =>
      match skipBlanks text with
      | [] => .ok []
      | b :: rest => do
          let (operation, after) ← readOperation false b rest
          let script ← readScript rounds after
          return (rest.length + 1, operation) :: script

def Draft.perform (size : Nat) : Draft → Script → Except (Failure Cause) Draft
  | draft, [] => .ok draft
  | draft, (left, operation) :: script => do
      let draft ← draft.apply (size - left) left operation
      draft.perform size script

/-! ## Keys and brackets -/

theorem length_lt_of_token {token : Token} {text after : Bytes}
    (h : skipBlanks text = token.toBytes ++ after) : after.length < text.length := by
  have hlength := congrArg List.length h
  have hskip := length_skipBlanks_le text
  have htoken := token.length_pos
  rw [List.length_append] at hlength
  omega

theorem readKey_eq_ok_iff {role : KeyRole} {text key after : Bytes} :
    readKey role text = .ok (key, after) ↔
      IsKey key ∧ skipBlanks text = (Token.key key).toBytes ++ after := by
  have hbytes : (Token.key key).toBytes ++ after = Byte.quote :: (key ++ Byte.quote :: after) := by
    simp [Token.toBytes, Bytes.inQuotes]
  rw [hbytes, readKey]
  cases skipBlanks text with
  | nil => simp
  | cons b rest =>
      by_cases hquote : b = Byte.quote
      · subst hquote
        have hsplit := List.takeWhile_append_dropWhile (p := (· != Byte.quote)) (l := rest)
        constructor
        · intro h
          simp only [ne_eq, not_true_eq_false, if_false] at h
          split at h
          · cases h
          · next q tail hdrop =>
              have hq : q = Byte.quote := by
                have hhead := List.head?_dropWhile_not (· != Byte.quote) rest
                rw [hdrop] at hhead
                simpa using hhead
              subst hq
              split at h
              · cases h
              · next hempty =>
                  cases h
                  refine ⟨⟨by simpa using hempty, fun hmem => ?_⟩, ?_⟩
                  · simpa using List.all_eq_true.mp (List.all_takeWhile (l := rest)) _ hmem
                  · rw [← hdrop, hsplit]
        · rintro ⟨⟨hne, hno⟩, h⟩
          obtain rfl := List.cons.inj h |>.2
          have hall : ∀ c ∈ key, (c != Byte.quote) = true := by
            intro c hc
            exact bne_iff_ne.mpr fun heq => hno (heq ▸ hc)
          have htake : (key ++ Byte.quote :: after).takeWhile (· != Byte.quote) = key := by
            rw [List.takeWhile_append_of_pos hall]
            simp
          have hdrop : (key ++ Byte.quote :: after).dropWhile (· != Byte.quote) =
              Byte.quote :: after := by
            rw [List.dropWhile_append_of_pos hall]
            simp
          simp [htake, hdrop, hne]
      · simp [hquote]

theorem readOpen_eq_ok_iff {opening : Opening} {key text after : Bytes} :
    readOpen opening key text = .ok after ↔
      skipBlanks text = Token.openBracket.toBytes ++ after := by
  rw [readOpen]
  cases skipBlanks text with
  | nil => simp [Token.toBytes]
  | cons b rest =>
      by_cases hopen : b = Byte.openBracket
      · simp [hopen, Token.toBytes]
      · simp [hopen, Token.toBytes]

/-! ## One operation -/

section Single

variable {key text after : Bytes} {operation : Operation}

/-- What an operation read from `text` tells: its tokens stand there, before `after`. -/
def ReadFrom (text : Bytes) (operation : Operation) (after : Bytes) : Prop :=
  ∃ tokens, operation.Spelled tokens ∧
    (∀ more, Spaced more after → Spaced (tokens ++ more) text) ∧ after.length < text.length

theorem readMemberStep_sound (h : readMemberStep text = .ok (operation, after)) :
    ReadFrom (Byte.dot :: text) operation after := by
  simp only [readMemberStep, except_bind_eq_ok, Prod.exists, readKey_eq_ok_iff,
    readOpen_eq_ok_iff, pure, Except.pure, Except.ok.injEq, Prod.mk.injEq] at h
  obtain ⟨key, rest, ⟨hkey, hkeyText⟩, after', hopen, rfl, rfl⟩ := h
  refine ⟨_, .member hkey, fun more hmore => ?_, ?_⟩
  · simp only [List.cons_append, List.nil_append, spaced_cons_iff]
    exact ⟨text, rfl, rest, hkeyText, _, hopen, hmore⟩
  · have := length_lt_of_token hkeyText
    have := length_lt_of_token hopen
    simp only [List.length_cons]
    omega

theorem readElementStep_sound (h : readElementStep text = .ok (operation, after)) :
    ReadFrom (Byte.slash :: text) operation after := by
  simp only [readElementStep, except_bind_eq_ok, Prod.exists, readKey_eq_ok_iff,
    readOpen_eq_ok_iff] at h
  obtain ⟨key, rest, ⟨hkey, hkeyText⟩, rest₁, hopen, matchKey, rest₂, ⟨hmatchKey, hmatchText⟩, h⟩ := h
  split at h
  · cases h
  next rest₃ hequals =>
  simp only [except_bind_eq_ok, Prod.exists, readKey_eq_ok_iff, pure, Except.pure,
    Except.ok.injEq, Prod.mk.injEq] at h
  obtain ⟨matchValue, rest₄, ⟨hmatchValue, hvalueText⟩, rfl, hafter⟩ := h
  have hequalsText : skipBlanks rest₂ = Token.equals.toBytes ++ rest₃ :=
    Bytes.after?_eq_some_iff.mp hequals
  -- The closing part differs: a bracket is taken, or only the gap before whatever follows.
  obtain ⟨bracket, hbracket, hspaced, hlength⟩ : ∃ bracket : List Token,
      (bracket = [] ∨ bracket = [.openBracket]) ∧
      (∀ more, Spaced more after → Spaced (bracket ++ more) rest₄) ∧
      after.length ≤ rest₄.length := by
    cases htry : Bytes.after? [Byte.openBracket] (skipBlanks rest₄) with
    | none =>
        rw [htry, Option.getD_none] at hafter
        subst hafter
        exact ⟨[], Or.inl rfl, fun more hmore => spaced_skipBlanks.mp hmore,
          length_skipBlanks_le rest₄⟩
    | some rest₅ =>
        rw [htry, Option.getD_some] at hafter
        subst hafter
        have hopenText : skipBlanks rest₄ = Token.openBracket.toBytes ++ rest₅ :=
          Bytes.after?_eq_some_iff.mp htry
        exact ⟨[.openBracket], Or.inr rfl,
          fun more hmore => spaced_cons_iff.mpr ⟨rest₅, hopenText, hmore⟩,
          Nat.le_of_lt (length_lt_of_token hopenText)⟩
  refine ⟨_, .element hkey hmatchKey hmatchValue hbracket, fun more hmore => ?_, ?_⟩
  · simp only [List.cons_append, List.nil_append, spaced_cons_iff]
    exact ⟨text, rfl, rest, hkeyText, rest₁, hopen, rest₂, hmatchText, rest₃, hequalsText,
      rest₄, hvalueText, hspaced more hmore⟩
  · have := length_lt_of_token hkeyText
    have := length_lt_of_token hopen
    have := length_lt_of_token hmatchText
    have := length_lt_of_token hequalsText
    have := length_lt_of_token hvalueText
    simp only [List.length_cons]
    omega

theorem readLineItem_sound (h : readLineItem false (Byte.plus :: text) = .ok (operation, after)) :
    (∃ key, operation = .openItem key) ∧ ReadFrom (Byte.plus :: text) operation after := by
  simp only [readLineItem, except_bind_eq_ok, Prod.exists, readKey_eq_ok_iff, List.tail_cons,
    Bool.false_eq_true, if_false, readOpen_eq_ok_iff, pure, Except.pure, Except.ok.injEq,
    Prod.mk.injEq] at h
  obtain ⟨key, rest, ⟨hkey, hkeyText⟩, after', hopen, rfl, rfl⟩ := h
  refine ⟨⟨key, rfl⟩, _, .openItem hkey, fun more hmore => ?_, ?_⟩
  · simp only [List.cons_append, List.nil_append, spaced_cons_iff]
    exact ⟨text, rfl, rest, hkeyText, _, hopen, hmore⟩
  · have := length_lt_of_token hkeyText
    have := length_lt_of_token hopen
    simp only [List.length_cons]
    omega

theorem readOperation_sound {b : UInt8} {rest : Bytes}
    (h : readOperation false b rest = .ok (operation, after)) :
    ReadFrom (b :: rest) operation after := by
  unfold readOperation at h
  split at h
  · next hb => exact hb ▸ readMemberStep_sound h
  split at h
  · next hb => exact hb ▸ readElementStep_sound h
  split at h
  · next hb => exact hb ▸ (readLineItem_sound (hb ▸ h)).2
  split at h
  · next hb =>
      cases h
      refine ⟨_, .close, fun more hmore => ?_, Nat.lt_succ_self _⟩
      exact spaced_cons_iff.mpr ⟨after, by rw [hb]; rfl, hmore⟩
  split at h
  · simp only [except_bind_eq_ok, Prod.exists, readKey_eq_ok_iff, pure, Except.pure,
      Except.ok.injEq, Prod.mk.injEq] at h
    obtain ⟨key, _, ⟨hkey, hkeyText⟩, rfl, rfl⟩ := h
    exact ⟨_, .print hkey, fun more hmore => spaced_cons_iff.mpr ⟨_, hkeyText, hmore⟩,
      length_lt_of_token hkeyText⟩
  · cases h

/-- Without a bracket next, the optional bracket is not taken. -/
theorem after_openBracket_eq_none {more : List Token} (h : Spaced more text)
    (hnext : more.head? ≠ some .openBracket) :
    Bytes.after? [Byte.openBracket] (skipBlanks text) = none := by
  cases more with
  | nil =>
      rw [spaced_nil_iff.mp h]
      rfl
  | cons token more =>
      obtain ⟨rest, hskip, _⟩ := spaced_cons_iff.mp h
      rw [hskip]
      cases token with
      | openBracket => exact absurd rfl hnext
      | key text => rfl
      | _ => rfl

theorem readElementStep_complete {matchKey matchValue : Bytes} {bracket more : List Token}
    (hkey : IsKey key) (hmatchKey : IsKey matchKey) (hmatchValue : IsKey matchValue)
    (hbracket : bracket = [] ∨ bracket = [.openBracket])
    (h : Spaced ([.key key, .openBracket, .key matchKey, .equals, .key matchValue]
      ++ bracket ++ more) text)
    (hnext : more.head? ≠ some .openBracket) :
    ∃ after, readElementStep text = .ok (.descend (.element key matchKey matchValue), after) ∧
      Spaced more after := by
  simp only [List.cons_append, List.nil_append, spaced_cons_iff] at h
  obtain ⟨rest, hkeyText, rest₁, hopen, rest₂, hmatchText, rest₃, hequals, rest₄, hvalueText,
    hmore⟩ := h
  have hread : readElementStep text = .ok (.descend (.element key matchKey matchValue),
      (Bytes.after? [Byte.openBracket] (skipBlanks rest₄)).getD (skipBlanks rest₄)) := by
    have hequals' : Bytes.after? [Byte.equals] (skipBlanks rest₂) = some rest₃ :=
      Bytes.after?_eq_some_iff.mpr hequals
    simp [readElementStep, readKey_eq_ok_iff.mpr ⟨hkey, hkeyText⟩, readOpen_eq_ok_iff.mpr hopen,
      readKey_eq_ok_iff.mpr ⟨hmatchKey, hmatchText⟩, hequals',
      readKey_eq_ok_iff.mpr ⟨hmatchValue, hvalueText⟩, bind, Except.bind, pure, Except.pure]
  refine ⟨_, hread, ?_⟩
  rcases hbracket with rfl | rfl
  · rw [after_openBracket_eq_none hmore hnext]
    exact spaced_skipBlanks.mpr hmore
  · obtain ⟨rest₅, hopenText, hmore⟩ := spaced_cons_iff.mp hmore
    have htaken : Bytes.after? [Byte.openBracket] (skipBlanks rest₄) = some rest₅ :=
      Bytes.after?_eq_some_iff.mpr hopenText
    rw [htaken]
    exact hmore

/-- An operation is read wherever its tokens stand, unless a bracket follows that it would take. -/
theorem readOperation_complete {tokens more : List Token} (hop : operation.Spelled tokens)
    (h : Spaced (tokens ++ more) text) (hnext : more.head? ≠ some .openBracket) :
    ∃ b rest after, skipBlanks text = b :: rest ∧
      readOperation false b rest = .ok (operation, after) ∧ Spaced more after := by
  cases hop with
  | member hkey =>
      simp only [List.cons_append, List.nil_append, spaced_cons_iff] at h
      obtain ⟨rest, hdot, rest₁, hkeyText, after, hopen, hmore⟩ := h
      refine ⟨Byte.dot, rest, after, hdot, ?_, hmore⟩
      simp [readOperation, readMemberStep, readKey_eq_ok_iff.mpr ⟨hkey, hkeyText⟩,
        readOpen_eq_ok_iff.mpr hopen, bind, Except.bind, pure, Except.pure]
  | element hkey hmatchKey hmatchValue hbracket =>
      obtain ⟨rest, hslash, h⟩ := spaced_cons_iff.mp h
      obtain ⟨after, hread, hmore⟩ :=
        readElementStep_complete hkey hmatchKey hmatchValue hbracket h hnext
      exact ⟨Byte.slash, rest, after, hslash, hread, hmore⟩
  | openItem hkey =>
      simp only [List.cons_append, List.nil_append, spaced_cons_iff] at h
      obtain ⟨rest, hplus, rest₁, hkeyText, after, hopen, hmore⟩ := h
      refine ⟨Byte.plus, rest, after, hplus, ?_, hmore⟩
      change readLineItem false (Byte.plus :: rest) = _
      simp [readLineItem, readKey_eq_ok_iff.mpr ⟨hkey, hkeyText⟩,
        readOpen_eq_ok_iff.mpr hopen, bind, Except.bind, pure, Except.pure]
  | @print key hkey =>
      obtain ⟨after, hkeyText, hmore⟩ := spaced_cons_iff.mp h
      have hread : readKey .printedKey ((Token.key key).toBytes ++ after) = .ok (key, after) :=
        readKey_eq_ok_iff.mpr ⟨hkey, (Token.key key).skipBlanks_append after⟩
      refine ⟨Byte.quote, key ++ [Byte.quote] ++ after, after, hkeyText, ?_, hmore⟩
      change (readKey .printedKey ((Token.key key).toBytes ++ after) >>= _) = _
      rw [hread]
      rfl
  | close =>
      obtain ⟨after, hclose, hmore⟩ := spaced_cons_iff.mp h
      exact ⟨Byte.closeBracket, after, after, hclose, rfl, hmore⟩

end Single

/-! ## Scripts -/

theorem Spelled.append {operations others : List Operation} {tokens more : List Token}
    (h : Spelled operations tokens) (hmore : Spelled others more) :
    Spelled (operations ++ others) (tokens ++ more) := by
  induction h with
  | nil => exact hmore
  | cons hop _ ih =>
      rw [List.append_assoc]
      exact .cons hop ih

theorem spelled_append_iff {operations others : List Operation} {tokens : List Token} :
    Spelled (operations ++ others) tokens ↔
      ∃ first second, tokens = first ++ second ∧ Spelled operations first ∧
        Spelled others second := by
  constructor
  · intro h
    induction operations generalizing tokens with
    | nil => exact ⟨[], tokens, rfl, .nil, h⟩
    | cons operation operations ih =>
        cases h with
        | @cons _ _ first rest hop hrest =>
            obtain ⟨second, third, rfl, hsecond, hthird⟩ := ih hrest
            exact ⟨first ++ second, third, by rw [List.append_assoc], .cons hop hsecond, hthird⟩
  · rintro ⟨first, second, rfl, hfirst, hsecond⟩
    exact hfirst.append hsecond

/-- No operation begins with a bracket that an operation before it might take. -/
theorem Spelled.head_ne {operations : List Operation} {tokens : List Token}
    (h : Spelled operations tokens) : tokens.head? ≠ some .openBracket := by
  cases h with
  | nil => simp
  | cons hop _ => cases hop <;> simp

theorem readScript_sound {rounds : Nat} {text : Bytes} {script : Script}
    (h : readScript rounds text = .ok script) (hrounds : text.length < rounds) :
    ∃ tokens, Spelled (script.map Prod.snd) tokens ∧ Spaced tokens text := by
  induction rounds generalizing text script with
  | zero => omega
  | succ rounds ih =>
      rw [readScript] at h
      cases hskip : skipBlanks text with
      | nil =>
          rw [hskip] at h
          cases h
          exact ⟨[], .nil, spaced_nil_iff.mpr hskip⟩
      | cons b rest =>
          simp only [hskip, except_bind_eq_ok, Prod.exists, pure, Except.pure,
            Except.ok.injEq] at h
          obtain ⟨operation, after, hop, script, hscript, rfl⟩ := h
          obtain ⟨tokens, htokens, hspaced, hlength⟩ := readOperation_sound hop
          have hle := length_skipBlanks_le text
          rw [hskip] at hle
          obtain ⟨more, hmore, hafter⟩ := ih hscript (by omega)
          refine ⟨tokens ++ more, .cons htokens hmore, ?_⟩
          rw [← spaced_skipBlanks, hskip]
          exact hspaced more hafter

theorem readScript_complete {rounds : Nat} {text : Bytes} {operations : List Operation}
    {tokens : List Token} (hop : Spelled operations tokens) (h : Spaced tokens text)
    (hrounds : text.length < rounds) :
    ∃ script, readScript rounds text = .ok script ∧ script.map Prod.snd = operations := by
  induction hop generalizing rounds text with
  | nil =>
      obtain ⟨rounds, rfl⟩ := Nat.exists_eq_succ_of_ne_zero (Nat.ne_zero_of_lt hrounds)
      exact ⟨[], by simp [readScript, spaced_nil_iff.mp h], rfl⟩
  | cons hfirst hrest ih =>
      obtain ⟨rounds, rfl⟩ := Nat.exists_eq_succ_of_ne_zero (Nat.ne_zero_of_lt hrounds)
      obtain ⟨b, rest, after, hskip, hread, hafter⟩ :=
        readOperation_complete hfirst h hrest.head_ne
      obtain ⟨_, _, _, hlength⟩ := readOperation_sound hread
      have hle := length_skipBlanks_le text
      rw [hskip] at hle
      have hlt : after.length < rounds := by omega
      obtain ⟨script, hscript, rfl⟩ := ih hafter hlt
      refine ⟨(rest.length + 1, _) :: script, ?_, rfl⟩
      simp [readScript, hskip, hread, hscript, bind, Except.bind, pure, Except.pure]

/-! ## Reading and performing -/

theorem perform_append {size : Nat} {draft draft' : Draft} {script more : Script} :
    draft.perform size (script ++ more) = .ok draft' ↔
      ∃ middle, draft.perform size script = .ok middle ∧ middle.perform size more = .ok draft' := by
  induction script generalizing draft with
  | nil => simp [Draft.perform]
  | cons entry script ih =>
      simp only [List.cons_append, Draft.perform, except_bind_eq_ok, ih]
      constructor
      · rintro ⟨next, hnext, middle, hmiddle, hmore⟩
        exact ⟨middle, ⟨next, hnext, hmiddle⟩, hmore⟩
      · rintro ⟨middle, ⟨next, hnext, hmiddle⟩, hmore⟩
        exact ⟨next, hnext, middle, hmiddle, hmore⟩

/-- Whether a line item was closed matters for the operation read only if it opens another. -/
theorem readOperation_anyClosed {b : UInt8} (hb : b ≠ Byte.plus) (anyClosed : Bool)
    (rest : Bytes) : readOperation anyClosed b rest = readOperation false b rest := by
  simp [readOperation, hb]

theorem readLineItem_after_close {text : Bytes} {result : Operation × Bytes} :
    readLineItem true text ≠ .ok result := by
  simp [readLineItem, except_bind_eq_ok]

/-- One round: what the interleaved reader does is reading an operation and applying it. -/
theorem read_apply_iff {draft draft' : Draft} {b : UInt8} {rest after : Bytes}
    {operation : Operation} {position left : Nat} :
    readOperation draft.anyClosed b rest = .ok (operation, after) ∧
        draft.apply position left operation = .ok draft' ↔
      readOperation false b rest = .ok (operation, after) ∧
        draft.apply position left operation = .ok draft' := by
  by_cases hb : b = Byte.plus
  · subst hb
    cases hclosed : draft.anyClosed with
    | false => rfl
    | true =>
        refine iff_of_false (fun h => readLineItem_after_close h.1) ?_
        rintro ⟨hread, happly⟩
        obtain ⟨⟨key, rfl⟩, _⟩ := readLineItem_sound hread
        simp [Draft.apply, hclosed] at happly
  · rw [readOperation_anyClosed hb]

theorem draftFrom_eq_ok_iff {size rounds : Nat} {draft draft' : Draft} {text : Bytes} :
    draftFrom size rounds draft text = .ok draft' ↔
      ∃ script, readScript rounds text = .ok script ∧ draft.perform size script = .ok draft' := by
  induction rounds generalizing draft text with
  | zero => simp [draftFrom, readScript, Draft.perform]
  | succ rounds ih =>
      rw [draftFrom, readScript]
      cases skipBlanks text with
      | nil => simp [Draft.perform]
      | cons b rest =>
          simp only [except_bind_eq_ok, Prod.exists, pure, Except.pure, Except.ok.injEq, ih]
          constructor
          · rintro ⟨operation, after, hread, next, happly, script, hscript, hperform⟩
            obtain ⟨hread, happly⟩ := read_apply_iff.mp ⟨hread, happly⟩
            exact ⟨_, ⟨operation, after, hread, script, hscript, rfl⟩,
              except_bind_eq_ok.mpr ⟨next, happly, hperform⟩⟩
          · rintro ⟨_, ⟨operation, after, hread, script, hscript, rfl⟩, hperform⟩
            obtain ⟨next, happly, hperform⟩ := except_bind_eq_ok.mp hperform
            obtain ⟨hread, happly⟩ := read_apply_iff.mpr ⟨hread, happly⟩
            exact ⟨operation, after, hread, next, happly, script, hscript, hperform⟩

end JsonTable.Format
