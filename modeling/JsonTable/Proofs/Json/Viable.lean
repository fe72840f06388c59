import JsonTable.Proofs.Json.Faults
import JsonTable.Proofs.Viable

/-!
# Errors in JSON texts

What the reader has passed when it reports an error can always be continued to a JSON
text, at any depth: what is open is closed, a key that is missing is made up so that no
other has it, and a high surrogate is given a low one. So no error is placed after the
first byte that no JSON text has there.
-/

namespace JsonTable.Json

open Bytes

def Texts {α : Type} (Item : Bytes → α → Prop) (text : Bytes) : Prop :=
  ∃ x, Item text x

/-! ## Literals -/

theorem unitEscape_low : UnitEscape (ascii "\\udc00") 0xdc00 :=
  .digits (i := 13) (j := 12) (k := 0) (l := 0) (Or.inl rfl) (Or.inl rfl) (Or.inl rfl) (Or.inl rfl)

theorem unitEscape_high : UnitEscape (ascii "\\ud800") 0xd800 :=
  .digits (i := 13) (j := 8) (k := 0) (l := 0) (Or.inl rfl) (Or.inl rfl) (Or.inl rfl) (Or.inl rfl)

/-- A high surrogate waits for a low one. -/
theorem UnitEscape.viable_high {text : Bytes} {i : Nat} (hi : i < 0x400)
    (h : UnitEscape text (0xd800 + i)) : Viable (Texts PointEscape) text := by
  obtain ⟨c, hc⟩ := exists_toNat_eq
    (show (0x10000 + i * 0x400 + 0).isValidChar from Or.inr (by omega))
  exact ⟨_, c, .pair hi (by decide) h unitEscape_low hc⟩

theorem viable_escape : Viable (Texts PointEscape) [] :=
  (unitEscape_high.viable_high (i := 0) (by decide)).nil

theorem readHexDigits_faultsAfterViable {L : Bytes → Prop} {escape text : Bytes}
    {missing value : Nat} (h : Viable L []) :
    FaultsAfterViable L escape (readHexDigits escape missing value text) := by
  induction missing generalizing value text with
  | zero => exact faultsAfterViable_ok _ _ _
  | succ missing ih =>
      cases text with
      | nil => exact faultsAfterViable_start _ h
      | cons b text =>
          rw [readHexDigits]
          cases Byte.hexValue? b with
          | none => exact faultsAfterViable_start _ h
          | some digit => exact ih

theorem readPoint_faultsAfterViable (digits : Bytes) :
    FaultsAfterViable (Texts PointEscape) (Byte.backslash :: pointLetter :: digits)
      (readPoint (Byte.backslash :: pointLetter :: digits) digits) := by
  refine (readHexDigits_faultsAfterViable viable_escape).bind fun reading hhigh => ?_
  obtain ⟨high, rest⟩ := reading
  obtain ⟨text, htext, hunit⟩ := readHexDigits_iff.mp hhigh
  dsimp only
  split
  · exact faultsAfterViable_start _ viable_escape
  · split
    · next hsurrogate =>
        obtain ⟨i, hi, rfl⟩ := isHighSurrogate_iff.mp hsurrogate
        cases Bytes.after? [Byte.backslash, pointLetter] rest with
        | none => exact faultsAfterViable_start _ viable_escape
        | some lowDigits =>
            have hlow : FaultsAfterViable (· = []) rest (readHexDigits rest 4 0 lowDigits) :=
              readHexDigits_faultsAfterViable (viable_of_mem rfl)
            have hsecond : FaultsAfterViable (Texts PointEscape) (text ++ rest)
                (readHexDigits rest 4 0 lowDigits) := by
              refine hlow.after text ?_
              rintro _ rfl
              rw [List.append_nil]
              exact hunit.viable_high hi
            rw [← htext] at hsecond
            refine hsecond.bind fun reading _ => ?_
            split
            · exact faultsAfterViable_ok _ _ _
            · exact faultsAfterViable_start _ viable_escape
    · exact faultsAfterViable_ok _ _ _

section Literals

variable {L : Bytes → Prop}

/-- What stands before a character is viable if a character can follow it. -/
theorem readCharacter_faultsAfterViable (front : Bytes)
    (hfront : ∀ {used bytes}, Character used bytes → Viable L (front ++ used)) (text : Bytes) :
    FaultsAfterViable L (front ++ text) (readCharacter (front ++ text) text) := by
  have hspace : Character [Byte.space] [Byte.space] := .raw (by decide) (by decide) (by decide)
  have hbefore : Viable L front := (hfront hspace).of_append
  cases text with
  | nil => exact faultsAfterViable_start _ hbefore.nil
  | cons b rest =>
      unfold readCharacter
      dsimp only
      split
      · exact faultsAfterViable_faultAt _ rfl hbefore
      split
      · exact faultsAfterViable_ok _ _ _
      next hbackslash =>
        obtain rfl : b = Byte.backslash := Decidable.not_not.mp hbackslash
        cases rest with
        | nil => exact faultsAfterViable_start _ hbefore.nil
        | cons letter after =>
            dsimp only
            split
            · next hletter =>
                subst hletter
                have hescape : FaultsAfterViable L (front ++ Byte.backslash :: pointLetter :: after)
                    (readPoint (Byte.backslash :: pointLetter :: after) after) :=
                  (readPoint_faultsAfterViable after).after front fun t ⟨c, hc⟩ =>
                    hfront (.point hc)
                exact hescape.bind fun _ _ => faultsAfterViable_ok _ _ _
            · cases shortEscape? letter with
              | some c => exact faultsAfterViable_ok _ _ _
              | none => exact faultsAfterViable_faultAt _ rfl hbefore

theorem Characters.append_one {used text more bytes : Bytes} (h : Characters used text)
    (hmore : Character more bytes) : Characters (used ++ more) (text ++ bytes) := by
  induction h with
  | nil => simpa using Characters.cons hmore .nil
  | cons hfirst _ ih => simpa using Characters.cons hfirst ih

/-- A literal that was read up to some character can be read on from there. -/
theorem readCharacters_faultsAfterViable
    (hopen : ∀ {used bytes}, Characters used bytes → Viable L (Byte.quote :: used))
    {literal text body used : Bytes} (hliteral : literal = Byte.quote :: used ++ body)
    (hused : Characters used text.reverse) :
    FaultsAfterViable L literal (readCharacters literal text body) := by
  fun_induction readCharacters literal text body generalizing used with
  | case1 => exact faultsAfterViable_ok _ _ _
  | case2 text body hnone failure hread =>
      have hnext {more bytes : Bytes} (h : Character more bytes) :
          Viable L (Byte.quote :: used ++ more) := hopen (hused.append_one h)
      have hcharacter := readCharacter_faultsAfterViable (Byte.quote :: used) hnext body
      rw [← hliteral, hread] at hcharacter
      exact hcharacter
  | case3 text body hnone character rest hread ih =>
      obtain ⟨first, rfl, hfirst⟩ :=
        readCharacter_sound (after?_singleton_eq_none_iff.mp hnone) hread
      have hnext : literal = Byte.quote :: (used ++ first) ++ rest := by simp [hliteral]
      refine ih hnext ?_
      rw [List.reverse_append, List.reverse_reverse]
      exact hused.append_one hfirst

theorem readLiteral_faultsAfterViable
    (hopen : ∀ {used bytes}, Characters used bytes → Viable L (Byte.quote :: used))
    (body : Bytes) : FaultsAfterViable L (Byte.quote :: body) (readLiteral body) :=
  readCharacters_faultsAfterViable hopen rfl .nil

/-- More bytes than in all the keys to avoid make a key that is none of them. -/
theorem Characters.exists_fresh {used bytes : Bytes} (h : Characters used bytes)
    (avoid : List Bytes) :
    ∃ more key, Literal (Byte.quote :: used ++ more) key ∧ key ∉ avoid := by
  have hlong (n : Nat) : ∃ more key, Characters (used ++ more) key ∧ n ≤ key.length := by
    induction n with
    | zero => exact ⟨[], bytes, by rwa [List.append_nil], Nat.zero_le _⟩
    | succ n ih =>
        obtain ⟨more, key, hkey, hlength⟩ := ih
        have hspace : Character [Byte.space] [Byte.space] :=
          .raw (by decide) (by decide) (by decide)
        refine ⟨more ++ [Byte.space], key ++ [Byte.space], ?_, ?_⟩
        · rw [← List.append_assoc]
          exact hkey.append_one hspace
        · simpa using hlength
  obtain ⟨more, key, hkey, hlength⟩ := hlong (avoid.flatten.length + 1)
  refine ⟨more ++ [Byte.quote], key, ?_, fun hmem => ?_⟩
  · have hliteral := Literal.quoted hkey
    simpa using hliteral
  · have hshort := (List.sublist_flatten_of_mem hmem).length_le
    omega

end Literals

/-! ## Numbers and words -/

section Numbers

variable {L : Bytes → Prop}

theorem readInteger_faultsAfterViable (h : Viable L []) (number : Bytes) :
    FaultsAfterViable L number (readInteger number) := by
  rw [readInteger]
  generalize splitSign (· == Byte.minus) number = split
  obtain ⟨sign, rest⟩ := split
  cases rest with
  | nil => exact faultsAfterViable_start _ h
  | cons b after =>
      dsimp only
      split
      · exact faultsAfterViable_ok _ _ _
      split
      · exact faultsAfterViable_ok _ _ _
      · exact faultsAfterViable_start _ h

theorem readFraction_faultsAfterViable (h : Viable L []) (number taken text : Bytes) :
    FaultsAfterViable L number (readFraction number taken text) := by
  cases text with
  | nil => exact faultsAfterViable_ok _ _ _
  | cons b rest =>
      rw [readFraction]
      split
      · dsimp only
        split
        · exact faultsAfterViable_start _ h
        · exact faultsAfterViable_ok _ _ _
      · exact faultsAfterViable_ok _ _ _

theorem readExponent_faultsAfterViable (h : Viable L []) (number taken text : Bytes) :
    FaultsAfterViable L number (readExponent number taken text) := by
  cases text with
  | nil => exact faultsAfterViable_ok _ _ _
  | cons b rest =>
      rw [readExponent]
      split
      · dsimp only
        split
        · exact faultsAfterViable_start _ h
        · exact faultsAfterViable_ok _ _ _
      · exact faultsAfterViable_ok _ _ _

theorem readNumber_faultsAfterViable (h : Viable L []) (number : Bytes) :
    FaultsAfterViable L number (readNumber number) := by
  refine (readInteger_faultsAfterViable h number).bind fun whole _ => ?_
  refine (readFraction_faultsAfterViable h number _ _).bind fun decimal _ => ?_
  refine (readExponent_faultsAfterViable h number _ _).bind fun taken _ => ?_
  dsimp only
  split
  · exact faultsAfterViable_start _ h
  · exact faultsAfterViable_ok _ _ _

theorem readWord_faultsAfterViable (h : Viable L []) (text : Bytes) :
    FaultsAfterViable L text (readWord text) := by
  unfold readWord
  split
  · exact faultsAfterViable_ok _ _ _
  · exact faultsAfterViable_start _ h

end Numbers

/-! ## Sequences -/

section Sequences

variable {α : Type} {L : Bytes → Prop} {Item : Bytes → α → Prop} {Fresh : List α → α → Prop}
  {close : UInt8} {front : Bytes} {done : List α}

/-- After `front` there can be any items that are admitted after those done, and the end. -/
def Resumes (L : Bytes → Prop) (Item : Bytes → α → Prop) (Fresh : List α → α → Prop)
    (close : UInt8) (front : Bytes) (done : List α) : Prop :=
  ∀ text xs, Separated Item text xs → Admitted Fresh done xs → L (front ++ text ++ [close])

def Awaits (L : Bytes → Prop) (Item : Bytes → α → Prop) (Fresh : List α → α → Prop)
    (front : Bytes) (done : List α) : Prop :=
  ∀ used x, Led Item used x → Fresh done x → Viable L (front ++ used)

theorem Resumes.viable (h : Resumes L Item Fresh close front done) {used : Bytes} {x : α}
    (hused : Padded Item used x) (hx : Fresh done x) : Viable L (front ++ used) :=
  ⟨[close], h _ _ (.last hused) ⟨hx, trivial⟩⟩

theorem Resumes.awaits (h : Resumes L Item Fresh close front done) :
    Awaits L Item Fresh front done := by
  intro used x hled hx
  have hviable := h.viable (hled.padded blank_nil) hx
  rwa [List.append_nil] at hviable

theorem Resumes.comma (h : Resumes L Item Fresh close front done) {used : Bytes} {x : α}
    (hused : Padded Item used x) (hx : Fresh done x) :
    Resumes L Item Fresh close (front ++ used ++ [Byte.comma]) (x :: done) := by
  intro text xs hmore hadmitted
  have hlonger := h _ _ (.cons hused hmore) ⟨hx, hadmitted⟩
  simpa using hlonger

variable {enclosure : Enclosure} {opened : Bytes}
  {readItem : List α → Bytes → Reading (α × Bytes)}

/-- Every round starts after the opening byte or a comma, where items can follow. -/
theorem readItems_faultsAfterViable
    (hsound : ∀ done text rest x, readItem done text = .ok (x, rest) →
      ∃ used, text = used ++ rest ∧ Led Item used x ∧ Fresh done x)
    (hitem : ∀ done front text, opened = front ++ text → Awaits L Item Fresh front done →
      FaultsAfterViable L opened (readItem done text))
    (hempty : Viable L []) {rounds : Nat} {text : Bytes} (hopened : opened = front ++ text)
    (h : Resumes L Item Fresh enclosure.close front done) :
    FaultsAfterViable L opened (readItems enclosure opened readItem rounds done text) := by
  induction rounds generalizing done front text with
  | zero => exact faultsAfterViable_start _ hempty
  | succ rounds ih =>
      rw [readItems]
      refine (hitem _ _ _ hopened h.awaits).bind fun reading hread => ?_
      obtain ⟨x, rest⟩ := reading
      obtain ⟨used, rfl, hled, hx⟩ := hsound _ _ _ _ hread
      dsimp only
      cases hskip : skipSpaces rest with
      | nil => exact faultsAfterViable_start _ hempty
      | cons b after =>
          obtain ⟨_, blanks, hblanks, rfl⟩ := skipSpaces_eq_cons_iff.mp hskip
          have hused := hled.padded hblanks
          dsimp only
          split
          · exact faultsAfterViable_ok _ _ _
          split
          · next hcomma =>
              have hnext : opened = front ++ (used ++ blanks) ++ [Byte.comma] ++ after := by
                simp [hopened, hcomma]
              exact ih hnext (h.comma hused hx)
          · have hend : opened = front ++ (used ++ blanks) ++ b :: after := by simp [hopened]
            exact faultsAfterViable_faultAt _ hend (h.viable hused hx)

theorem readSequence_faultsAfterViable {first : UInt8} {body : Bytes}
    (hsound : ∀ done text rest x, readItem done text = .ok (x, rest) →
      ∃ used, text = used ++ rest ∧ Led Item used x ∧ Fresh done x)
    (hitem : ∀ done front text, first :: body = front ++ text → Awaits L Item Fresh front done →
      FaultsAfterViable L (first :: body) (readItem done text))
    (hempty : Viable L [])
    (h : ∀ text xs, Enclosed first enclosure.close Item text xs → Admitted Fresh [] xs → L text) :
    FaultsAfterViable L (first :: body)
      (readSequence enclosure (first :: body) readItem body) := by
  unfold readSequence
  split
  · exact faultsAfterViable_ok _ _ _
  · have hstart : Resumes L Item Fresh enclosure.close [first] [] :=
      fun text xs hitems hadmitted => h _ xs (.items hitems) hadmitted
    have hopened : first :: body = [first] ++ body := rfl
    exact readItems_faultsAfterViable hsound hitem hempty hopened hstart

end Sequences

/-! ## Values -/

theorem viable_value : Viable (Texts Value) [] :=
  ⟨ascii "null", .null, .nullWord⟩

section Values

variable {readNested : Bytes → Reading (Document × Bytes)} {levels : Nat}

theorem Led.imp {α : Type} {Item Item' : Bytes → α → Prop} {text : Bytes} {x : α}
    (h : Led Item text x) (himp : ∀ t y, Item t y → Item' t y) : Led Item' text x := by
  obtain ⟨hblanks, hitem⟩ := h
  exact .after hblanks (himp _ _ hitem)

theorem Member.imp {α : Type} {Item Item' : Bytes → α → Prop} {text : Bytes} {m : Bytes × α}
    (h : Member Item text m) (himp : ∀ t y, Item t y → Item' t y) : Member Item' text m := by
  obtain ⟨hliteral, hbefore, hafter, hitem⟩ := h
  exact .pair hliteral hbefore hafter (himp _ _ hitem)

/-! ### Members -/

section Members

variable {L : Bytes → Prop} {front blanks literal before key : Bytes} {done : Keyed Document}

theorem Awaits.within_value (h : Awaits L (Member Value) FreshKey front done)
    (hblanks : Blank blanks) (hliteral : Literal literal key) (hkey : key ∉ done.map Prod.fst)
    (hbefore : Blank before) {value : Bytes} (hvalue : Texts (Led Value) value) :
    Viable L (front ++ blanks ++ literal ++ before ++ [Byte.colon] ++ value) := by
  obtain ⟨d, hafter, hd⟩ := hvalue
  have hmember := h _ _ (.after hblanks (.pair hliteral hbefore hafter hd)) hkey
  simpa using hmember

theorem Awaits.before_colon (h : Awaits L (Member Value) FreshKey front done)
    (hblanks : Blank blanks) (hliteral : Literal literal key) (hkey : key ∉ done.map Prod.fst)
    (hbefore : Blank before) : Viable L (front ++ blanks ++ literal ++ before) := by
  have hnull : Texts (Led Value) (ascii "null") := ⟨.null, .after blank_nil .nullWord⟩
  exact (h.within_value hblanks hliteral hkey hbefore hnull).of_append.of_append

/-- A key that has begun can go on so that no member before it has the same one. -/
theorem Awaits.within_key (h : Awaits L (Member Value) FreshKey front done)
    (hblanks : Blank blanks) {used bytes : Bytes} (hused : Characters used bytes) :
    Viable L (front ++ blanks ++ Byte.quote :: used) := by
  obtain ⟨more, key, hliteral, hkey⟩ := hused.exists_fresh (done.map Prod.fst)
  have hclosed := h.before_colon hblanks hliteral hkey blank_nil
  rw [List.append_nil, ← List.append_assoc] at hclosed
  exact hclosed.of_append

end Members

theorem readMember_faultsAfterViable {L : Bytes → Prop} {opened front text : Bytes}
    {done : Keyed Document}
    (hnested : ∀ text, FaultsAfterViable (Texts (Led Value)) text (readNested text))
    (hopened : opened = front ++ text) (h : Awaits L (Member Value) FreshKey front done) :
    FaultsAfterViable L opened (readMember readNested opened done text) := by
  unfold readMember
  cases hskip : skipSpaces text with
  | nil => exact faultsAfterViable_start _ (h.within_key blank_nil .nil).nil
  | cons b body =>
      obtain ⟨_, blanks, hblanks, rfl⟩ := skipSpaces_eq_cons_iff.mp hskip
      have hkeyStart : opened = front ++ blanks ++ b :: body := by simp [hopened]
      have hbegun : Viable L (front ++ blanks) := (h.within_key hblanks .nil).of_append
      dsimp only
      split
      · exact faultsAfterViable_faultAt _ hkeyStart hbegun
      next hquote =>
        obtain rfl : b = Byte.quote := Decidable.not_not.mp hquote
        have hread : FaultsAfterViable L opened (readLiteral body) := by
          rw [hkeyStart]
          refine FaultsAfterViable.after ?_ (front ++ blanks) fun t ht => ht
          exact readLiteral_faultsAfterViable
            (fun hused => viable_of_mem (h.within_key hblanks hused)) body
        refine hread.bind fun reading hliteral => ?_
        obtain ⟨key, rest⟩ := reading
        obtain ⟨literal, htext, hliteral⟩ := readLiteral_sound hliteral
        dsimp only
        split
        · exact faultsAfterViable_faultAt _ hkeyStart hbegun
        next hrepeated =>
          have hkey : FreshKey done (key, .null) :=
            any_key_eq_false_iff.mp (Bool.eq_false_iff.mpr hrepeated)
          obtain ⟨before, hbefore, hrest⟩ := exists_blank rest
          have hkeyEnd : opened = front ++ blanks ++ literal ++ before ++ skipSpaces rest := by
            rw [List.append_assoc _ before, ← hrest, List.append_assoc _ literal, ← htext,
              hkeyStart]
          cases hcolon : Bytes.after? [Byte.colon] (skipSpaces rest) with
          | none =>
              exact faultsAfterViable_faultAt _ hkeyEnd
                (h.before_colon hblanks hliteral hkey hbefore)
          | some after =>
              rw [Bytes.after?_eq_some_iff.mp hcolon, ← List.append_assoc] at hkeyEnd
              have hvalue : FaultsAfterViable L opened (readNested after) := by
                rw [hkeyEnd]
                exact (hnested after).after _ fun _ => h.within_value hblanks hliteral hkey hbefore
              exact hvalue.bind fun _ _ => faultsAfterViable_ok _ _ _

/-! ### Nested values -/

section Nested

variable (hnested : Reads readNested (Led (ValueWithin levels)))
  (hfaults : ∀ text, FaultsAfterViable (Texts (Led Value)) text (readNested text))
include hnested hfaults

theorem readMembers_faultsAfterViable (rest : Bytes) :
    FaultsAfterViable (Texts Value) (Byte.openBrace :: rest)
      (readSequence .object (Byte.openBrace :: rest)
        (readMember readNested (Byte.openBrace :: rest)) rest) := by
  refine readSequence_faultsAfterViable (fun done text rest m h => ?_)
    (fun done front text => readMember_faultsAfterViable hfaults) viable_value
    fun text members hmembers hadmitted => ?_
  · obtain ⟨used, htext, hled, hfresh⟩ := (readMember_reads hnested _ done).sound h
    exact ⟨used, htext, hled.imp fun _ _ hm => hm.imp fun _ _ hd => hd.1, hfresh⟩
  · have hnodup := (admitted_freshKey_iff.mp hadmitted).1
    exact ⟨_, .object hmembers hnodup (Keyed.sort_perm _) (Keyed.ascending_sort hnodup)⟩

theorem readArrayItems_faultsAfterViable (rest : Bytes) :
    FaultsAfterViable (Texts Value) (Byte.openBracket :: rest)
      (readSequence .array (Byte.openBracket :: rest) (fun _ => readNested) rest) := by
  have harray (text : Bytes) (items : List Document)
      (h : Enclosed Byte.openBracket Byte.closeBracket Value text items)
      (_ : Admitted (fun _ _ => True) [] items) : Texts Value text := ⟨_, .array h⟩
  refine readSequence_faultsAfterViable (fun _ text rest d h => ?_)
    (fun _ front text htext hawaits => ?_) viable_value harray
  · obtain ⟨used, htext, hled⟩ := hnested.sound h
    exact ⟨used, htext, hled.imp fun _ _ hd => hd.1, trivial⟩
  · rw [htext]
    exact (hfaults text).after front fun t ⟨d, hd⟩ => hawaits _ _ hd trivial

theorem readBegun_faultsAfterViable (b : UInt8) (rest : Bytes) :
    FaultsAfterViable (Texts Value) (b :: rest) (readBegun readNested b rest) := by
  unfold readBegun
  split
  · next hb =>
      subst hb
      refine (readMembers_faultsAfterViable hnested hfaults rest).bind fun reading hread => ?_
      obtain ⟨object, hobject⟩ := ofMembers_of_readSequence hnested hread
      dsimp only
      rw [hobject]
      exact faultsAfterViable_ok _ _ _
  split
  · next hb =>
      subst hb
      exact (readArrayItems_faultsAfterViable hnested hfaults rest).bind
        fun _ _ => faultsAfterViable_ok _ _ _
  split
  · next hb =>
      subst hb
      have hliteral : FaultsAfterViable (Texts Value) (Byte.quote :: rest) (readLiteral rest) := by
        refine readLiteral_faultsAfterViable (fun h => ?_) rest
        obtain ⟨more, key, hliteral, _⟩ := h.exists_fresh []
        exact ⟨more, _, .string hliteral⟩
      exact hliteral.bind fun _ _ => faultsAfterViable_ok _ _ _
  split
  · exact (readNumber_faultsAfterViable viable_value _).bind fun _ _ => faultsAfterViable_ok _ _ _
  · exact readWord_faultsAfterViable viable_value _

end Nested

/-- The limit on the levels is met before a value, where one could still stand. -/
theorem readValue_faultsAfterViable (levels : Nat) (text : Bytes) :
    FaultsAfterViable (Texts (Led Value)) text (readValue levels text) := by
  have hled {blanks : Bytes} (hblanks : Blank blanks) :
      Viable (Texts (Led Value)) blanks := ⟨ascii "null", .null, .after hblanks .nullWord⟩
  induction levels generalizing text with
  | zero =>
      unfold readValue
      cases hskip : skipSpaces text with
      | nil =>
          have hblank := skipSpaces_eq_nil_iff.mp hskip
          exact faultsAfterViable_faultAt _ (List.append_nil _).symm (hled hblank)
      | cons b rest =>
          obtain ⟨_, blanks, hblanks, htext⟩ := skipSpaces_eq_cons_iff.mp hskip
          exact faultsAfterViable_faultAt _ htext (hled hblanks)
  | succ levels ih =>
      unfold readValue
      cases hskip : skipSpaces text with
      | nil =>
          have hblank := skipSpaces_eq_nil_iff.mp hskip
          exact faultsAfterViable_faultAt _ (List.append_nil _).symm (hled hblank)
      | cons b rest =>
          obtain ⟨_, blanks, hblanks, rfl⟩ := skipSpaces_eq_cons_iff.mp hskip
          refine (readBegun_faultsAfterViable (readValue_reads levels) ih b rest).after blanks ?_
          rintro t ⟨d, hd⟩
          exact viable_of_mem ⟨d, .after hblanks hd⟩

end Values

/-! ## Documents -/

theorem readSpaced_faultsAfterViable (text : Bytes) :
    FaultsAfterViable (Texts (Padded Value)) text (readSpaced text) := by
  have hvalue : FaultsAfterViable (Texts (Padded Value)) text (readValue (maxDepth + 1) text) := by
    refine (readValue_faultsAfterViable _ text).after [] ?_
    rintro t ⟨d, hd⟩
    have hpadded := hd.padded blank_nil
    rw [List.append_nil] at hpadded
    exact viable_of_mem ⟨d, hpadded⟩
  exact hvalue.bind fun _ _ => faultsAfterViable_ok _ _ _

theorem readWhole_faultsAfterViable (text : Bytes) :
    FaultsAfterViable (Texts (Padded Value)) text (readWhole text) := by
  refine (readSpaced_faultsAfterViable text).bind fun reading hread => ?_
  obtain ⟨value, rest⟩ := reading
  simp only [readSpaced, except_bind_eq_ok, Prod.exists] at hread
  obtain ⟨d, after, hread, hrest⟩ := hread
  obtain ⟨rfl, rfl⟩ := Prod.mk.inj (Except.ok.inj hrest)
  obtain ⟨used, rfl, hled⟩ := (readValue_reads _).sound hread
  obtain ⟨blanks, hblanks, hafter⟩ := exists_blank after
  have hpadded : Padded Value (used ++ blanks) d :=
    (hled.imp fun _ _ hd => hd.1).padded hblanks
  have htext : used ++ after = used ++ blanks ++ skipSpaces after := by
    rw [List.append_assoc, ← hafter]
  dsimp only
  split
  · exact faultsAfterViable_ok _ _ _
  · exact faultsAfterViable_faultAt _ htext (viable_of_mem ⟨d, hpadded⟩)

/-- As `Denotes`, but for the limit on the levels. -/
def DenotesAtAnyDepth (text : Bytes) (document : Document) : Prop :=
  ∃ mark body, text = mark ++ body ∧ (mark = [] ∨ mark = [0xef, 0xbb, 0xbf]) ∧
    Padded Value body document

theorem denotes_iff_atAnyDepth {text : Bytes} {d : Document} :
    Denotes text d ↔
      DenotesAtAnyDepth text d ∧ ∀ level x, Located d level x → level ≤ 512 := by
  constructor
  · rintro ⟨mark, body, htext, hmark, hbody, hdepth⟩
    exact ⟨⟨mark, body, htext, hmark, hbody⟩, hdepth⟩
  · rintro ⟨⟨mark, body, htext, hmark, hbody⟩, hdepth⟩
    exact ⟨mark, body, htext, hmark, hbody, hdepth⟩

theorem read_after_viable (report : Report) :
    (∃ document, Document.read report = .ok (some document, report)) ∨
      ∃ error : Diagnostic, Document.read report = .ok (none, report.add error) ∧
        error.severity = .error ∧ error.start ≤ report.source.size ∧
        Viable (Texts DenotesAtAnyDepth) (report.source.bytes.take error.start) := by
  obtain ⟨mark, body, hbytes, hmark, hread⟩ := exists_read_eq report
  rw [hread]
  rcases report.settle_after_viable hbytes (readWhole_faultsAfterViable body) Cause.message with
    hsettled | ⟨error, hsettled, hseverity, hstart, lead, htake, hlead⟩
  · exact Or.inl hsettled
  · refine Or.inr ⟨error, hsettled, hseverity, hstart, ?_⟩
    rw [htake]
    refine hlead.after mark ?_
    rintro t ⟨document, hdocument⟩
    exact viable_of_mem ⟨document, mark, t, rfl, hmark, hdocument⟩

/--
A text that denotes a document is read as that document. For any other one error is
recorded, and what stands before it can be continued to a text that denotes a document,
if the depth of its values does not matter.
-/
theorem error_follows_viable_text (report : Report) :
    (∃ document, Denotes report.source.bytes document ∧
        Document.read report = .ok (some document, report)) ∨
      (∀ document, ¬ Denotes report.source.bytes document) ∧
        ∃ error : Diagnostic, Document.read report = .ok (none, report.add error) ∧
          error.severity = .error ∧ error.start ≤ report.source.size ∧
          ∃ more document,
            DenotesAtAnyDepth (report.source.bytes.take error.start ++ more) document := by
  rcases read_after_viable report with ⟨document, hread⟩ | ⟨error, hread, hviable⟩
  · exact Or.inl ⟨document, (read_eq_some_iff.mp hread).1, hread⟩
  · refine Or.inr ⟨fun document hdocument => ?_, error, hread, hviable⟩
    rw [read_eq_some_iff.mpr ⟨hdocument, rfl⟩] at hread
    cases hread

end JsonTable.Json
