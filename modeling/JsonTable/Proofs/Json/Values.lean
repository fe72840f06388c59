import JsonTable.Proofs.Json.Cursor
import JsonTable.Proofs.Json.Literals
import JsonTable.Proofs.Json.Numbers
import JsonTable.Proofs.Keyed

/-!
# Reading values

A value is read with a limit on its levels, and the values within it with one
less. So everything is shown by induction on the limit: if the values within are
read as the grammar has them, so is the value around them.
-/

namespace JsonTable.Json

open Bytes

/-! ## Levels -/

def Shallow (levels : Nat) (d : Document) : Prop :=
  ∀ level x, Located d level x → level < levels

def ValueWithin (levels : Nat) (text : Bytes) (d : Document) : Prop :=
  Value text d ∧ Shallow levels d

theorem not_shallow_zero (d : Document) : ¬ Shallow 0 d :=
  fun h => Nat.not_lt_zero 0 (h 0 d .top)

theorem shallow_array_iff {levels : Nat} {items : List Document} :
    Shallow (levels + 1) (.array items) ↔ ∀ item ∈ items, Shallow levels item := by
  constructor
  · intro h item hitem level x hx
    exact Nat.lt_of_succ_lt_succ (h (level + 1) x (.item hitem hx))
  · intro h level x hx
    cases hx with
    | top => exact Nat.zero_lt_succ levels
    | item hitem hx => exact Nat.succ_lt_succ (h _ hitem _ _ hx)

theorem shallow_object_iff {levels : Nat} {members : Keyed Document} :
    Shallow (levels + 1) (.object members) ↔ ∀ member ∈ members, Shallow levels member.2 := by
  constructor
  · intro h member hmember level x hx
    exact Nat.lt_of_succ_lt_succ (h (level + 1) x (.member hmember hx))
  · intro h level x hx
    cases hx with
    | top => exact Nat.zero_lt_succ levels
    | member hmember hx => exact Nat.succ_lt_succ (h _ hmember _ _ hx)

theorem shallow_of_kind {levels : Nat} {d : Document} (harray : d.kind ≠ .array)
    (hobject : d.kind ≠ .object) : Shallow (levels + 1) d := by
  intro level x hx
  cases hx with
  | top => exact Nat.zero_lt_succ levels
  | item => exact absurd rfl harray
  | member => exact absurd rfl hobject

/-! ## Items that satisfy more -/

section Items

variable {α : Type} {Item : Bytes → α → Prop} {P : α → Prop}

theorem padded_and_iff {text : Bytes} {x : α} :
    Padded (fun t y => Item t y ∧ P y) text x ↔ Padded Item text x ∧ P x := by
  constructor
  · rintro ⟨hbefore, ⟨hitem, hx⟩, hafter⟩
    exact ⟨.around hbefore hitem hafter, hx⟩
  · rintro ⟨⟨hbefore, hitem, hafter⟩, hx⟩
    exact .around hbefore ⟨hitem, hx⟩ hafter

theorem separated_and_iff {text : Bytes} {xs : List α} :
    Separated (fun t y => Item t y ∧ P y) text xs ↔ Separated Item text xs ∧ ∀ x ∈ xs, P x := by
  constructor
  · intro h
    induction h with
    | last hpadded =>
        obtain ⟨hpadded, hx⟩ := padded_and_iff.mp hpadded
        exact ⟨.last hpadded, List.forall_mem_singleton.mpr hx⟩
    | cons hpadded _ ih =>
        obtain ⟨hpadded, hx⟩ := padded_and_iff.mp hpadded
        exact ⟨.cons hpadded ih.1, List.forall_mem_cons.mpr ⟨hx, ih.2⟩⟩
  · rintro ⟨h, hall⟩
    induction h with
    | last hpadded => exact .last (padded_and_iff.mpr ⟨hpadded, hall _ List.mem_cons_self⟩)
    | cons hpadded _ ih =>
        obtain ⟨hx, hxs⟩ := List.forall_mem_cons.mp hall
        exact .cons (padded_and_iff.mpr ⟨hpadded, hx⟩) (ih hxs)

theorem enclosed_and_iff {first last : UInt8} {text : Bytes} {xs : List α} :
    Enclosed first last (fun t y => Item t y ∧ P y) text xs ↔
      Enclosed first last Item text xs ∧ ∀ x ∈ xs, P x := by
  constructor
  · rintro (hblanks | h)
    · exact ⟨.empty hblanks, by simp⟩
    · obtain ⟨h, hall⟩ := separated_and_iff.mp h
      exact ⟨.items h, hall⟩
  · rintro ⟨hblanks | h, hall⟩
    · exact .empty hblanks
    · exact .items (separated_and_iff.mpr ⟨h, hall⟩)

theorem member_and_iff :
    Member (fun t y => Item t y ∧ P y) = fun t (m : Bytes × α) => Member Item t m ∧ P m.2 := by
  funext text m
  apply propext
  constructor
  · rintro ⟨hliteral, hbefore, hafter, hitem, hx⟩
    exact ⟨.pair hliteral hbefore hafter hitem, hx⟩
  · rintro ⟨⟨hliteral, hbefore, hafter, hitem⟩, hx⟩
    exact .pair hliteral hbefore hafter ⟨hitem, hx⟩

theorem Enclosed.exists_eq_cons {first last : UInt8} {text : Bytes} {xs : List α}
    (h : Enclosed first last Item text xs) : ∃ rest, text = first :: rest := by
  cases h with
  | empty => exact ⟨_, rfl⟩
  | items => exact ⟨_, rfl⟩

end Items

/-! ## First bytes -/

theorem Literal.exists_eq_cons {literal text : Bytes} (h : Literal literal text) :
    ∃ rest, literal = Byte.quote :: rest := by
  cases h
  exact ⟨_, rfl⟩

theorem Number.exists_eq_cons {text : Bytes} (h : Number text) :
    ∃ b rest, text = b :: rest ∧ b ∈ ascii "-0123456789" := by
  obtain ⟨rfl | rfl, hwhole, _, _⟩ := h
  · cases hwhole with
    | zero => exact ⟨_, _, rfl, by decide⟩
    | digits hb _ =>
        have hdigit := isDigit_iff.mp (isDigit_iff_zero_or.mpr (Or.inr hb))
        exact ⟨_, _, rfl, List.mem_cons_of_mem Byte.minus hdigit⟩
  · exact ⟨_, _, rfl, by decide⟩

def firstBytes : Bytes :=
  [Byte.quote, Byte.openBracket, Byte.openBrace] ++ ascii "tfn" ++ ascii "-0123456789"

theorem Value.exists_eq_cons {text : Bytes} {d : Document} (h : Value text d) :
    ∃ b rest, text = b :: rest ∧ b ∈ firstBytes := by
  cases h with
  | trueWord => exact ⟨_, _, rfl, by decide⟩
  | falseWord => exact ⟨_, _, rfl, by decide⟩
  | nullWord => exact ⟨_, _, rfl, by decide⟩
  | number hnumber =>
      obtain ⟨b, rest, rfl, hb⟩ := hnumber.exists_eq_cons
      exact ⟨b, rest, rfl, List.mem_append_right _ hb⟩
  | string hliteral =>
      obtain ⟨rest, rfl⟩ := hliteral.exists_eq_cons
      exact ⟨_, _, rfl, by decide⟩
  | array hitems =>
      obtain ⟨rest, rfl⟩ := hitems.exists_eq_cons
      exact ⟨_, _, rfl, by decide⟩
  | object hmembers _ _ _ =>
      obtain ⟨rest, rfl⟩ := hmembers.exists_eq_cons
      exact ⟨_, _, rfl, by decide⟩

theorem Value.begins {text : Bytes} {d : Document} (h : Value text d) : Begins text := by
  obtain ⟨b, rest, rfl, hb⟩ := h.exists_eq_cons
  have hspace : firstBytes.any isSpace = false := rfl
  have hend : firstBytes.any (fun c => c ∈ [Byte.closeBracket, Byte.closeBrace]) = false := rfl
  refine ⟨b, rest, rfl, Bool.eq_false_iff.mpr (List.any_eq_false.mp hspace b hb), fun h => ?_⟩
  exact List.any_eq_false.mp hend b hb (decide_eq_true h)

theorem Member.begins {Item : Bytes → Document → Prop} {text : Bytes} {m : Bytes × Document}
    (h : Member Item text m) : Begins text := by
  obtain ⟨hliteral, _, _, _⟩ := h
  obtain ⟨rest, rfl⟩ := hliteral.exists_eq_cons
  exact ⟨Byte.quote, _, rfl, by decide, by decide⟩

/-! ## Members -/

def FreshKey (done : Keyed Document) (m : Bytes × Document) : Prop :=
  m.1 ∉ done.map Prod.fst

theorem admitted_freshKey_iff {done members : Keyed Document} :
    Admitted FreshKey done members ↔
      (members.map Prod.fst).Nodup ∧ ∀ m ∈ members, FreshKey done m := by
  induction members generalizing done with
  | nil => simp [Admitted]
  | cons m members ih =>
      rw [Admitted, ih, List.map_cons, List.nodup_cons, List.forall_mem_cons]
      simp only [FreshKey, List.map_cons, List.mem_cons, not_or]
      constructor
      · rintro ⟨hm, hnodup, hall⟩
        refine ⟨⟨fun hkey => ?_, hnodup⟩, hm, fun x hx => (hall x hx).2⟩
        obtain ⟨x, hx, heq⟩ := List.mem_map.mp hkey
        exact (hall x hx).1 heq
      · rintro ⟨⟨hkey, hnodup⟩, hm, hall⟩
        exact ⟨hm, hnodup, fun x hx => ⟨fun heq => hkey (List.mem_map.mpr ⟨x, hx, heq⟩),
          hall x hx⟩⟩

theorem admitted_true {α : Type} (done xs : List α) : Admitted (fun _ _ => True) done xs := by
  induction xs generalizing done with
  | nil => trivial
  | cons x xs ih => exact ⟨trivial, ih (x :: done)⟩

theorem any_key_eq_false_iff {done : Keyed Document} {key : Bytes} {value : Document} :
    (done.any fun member => member.1 == key) = false ↔ FreshKey done (key, value) := by
  rw [Bool.eq_false_iff, ne_eq, List.any_eq_true, FreshKey, List.mem_map]
  simp only [beq_iff_eq]

variable {levels : Nat} {readNested : Bytes → Reading (Document × Bytes)}
  {Item : Bytes → Document → Prop}

theorem readMember_reads (hnested : Reads readNested (Led Item)) (opened : Bytes)
    (done : Keyed Document) :
    Reads (readMember readNested opened done) fun text m =>
      Led (Member Item) text m ∧ FreshKey done m where
  sound := by
    intro text rest m h
    unfold readMember at h
    split at h
    · cases h
    · next b body hskip =>
        split at h
        · cases h
        · next hb =>
            obtain rfl : b = Byte.quote := Decidable.not_not.mp hb
            obtain ⟨_, blanks, hblanks, rfl⟩ := skipSpaces_eq_cons_iff.mp hskip
            simp only [except_bind_eq_ok, Prod.exists] at h
            obtain ⟨key, after, hliteral, h⟩ := h
            split at h
            · cases h
            · next hfresh =>
                split at h
                · cases h
                · next tail hcolon =>
                    simp only [except_bind_eq_ok, Prod.exists] at h
                    obtain ⟨value, _, hvalue, h⟩ := h
                    cases h
                    obtain ⟨literal, htext, hkey⟩ := readLiteral_sound hliteral
                    obtain ⟨_, before, hbefore, rfl⟩ :=
                      skipSpaces_eq_cons_iff.mp (Bytes.after?_eq_some_iff.mp hcolon)
                    obtain ⟨_, rfl, hafter, hitem⟩ := hnested.sound hvalue
                    refine ⟨_, ?_, .after hblanks (.pair hkey hbefore hafter hitem),
                      any_key_eq_false_iff.mp (Bool.eq_false_iff.mpr hfresh)⟩
                    rw [htext]
                    simp
  complete := by
    rintro used rest m ⟨hled, hfresh⟩ hends
    cases hled with
    | @after blanks text _ hblanks hmember =>
        cases hmember with
        | @pair literal key before after text value hliteral hbefore hafter hitem =>
            obtain ⟨body, hbody, hread⟩ := readLiteral_complete hliteral
              (before ++ Byte.colon :: (after ++ text ++ rest))
            have hvalue := hnested.complete (.after hafter hitem) hends
            have hsplit : blanks ++ (literal ++ before ++ Byte.colon :: after ++ text) ++ rest =
                blanks ++ Byte.quote :: body := by
              rw [← hbody]
              simp
            have hcolon : Bytes.after? [Byte.colon] (Byte.colon :: (after ++ text ++ rest)) =
                some (after ++ text ++ rest) := Bytes.after?_eq_some_iff.mpr rfl
            rw [hsplit, readMember, skipSpaces_append hblanks, skipSpaces_cons (by decide)]
            simp only [ne_eq, not_true_eq_false, ↓reduceIte, hread, bind, Except.bind,
              any_key_eq_false_iff.mpr hfresh, Bool.false_eq_true, skipSpaces_append hbefore,
              skipSpaces_cons (b := Byte.colon) (by decide), hcolon, hvalue]
            rfl

/-! ## Values -/

theorem Reads.fresh_true {α : Type} {read : Bytes → Reading (α × Bytes)}
    {Item : Bytes → α → Prop} (h : Reads read Item) :
    Reads read fun text x => Item text x ∧ True := by
  simpa only [and_true] using h

theorem readWord_sound {text rest : Bytes} {d : Document} (h : readWord text = .ok (d, rest)) :
    ∃ word, text = word ++ rest ∧ (word, d) ∈ valueWords := by
  unfold readWord at h
  split at h
  · next reading hfound =>
      cases h
      obtain ⟨⟨word, value⟩, hmem, hafter⟩ := List.exists_of_findSome?_eq_some hfound
      obtain ⟨tail, htail, heq⟩ := Option.map_eq_some_iff.mp hafter
      cases heq
      exact ⟨word, Bytes.after?_eq_some_iff.mp htail, hmem⟩
  · cases h

theorem valueWithin_of_mem_valueWords {word : Bytes} {d : Document}
    (h : (word, d) ∈ valueWords) : ValueWithin (levels + 1) word d := by
  simp only [valueWords, List.mem_cons, Prod.mk.injEq, List.not_mem_nil, or_false] at h
  rcases h with ⟨rfl, rfl⟩ | ⟨rfl, rfl⟩ | ⟨rfl, rfl⟩
  · exact ⟨.trueWord, shallow_of_kind nofun nofun⟩
  · exact ⟨.falseWord, shallow_of_kind nofun nofun⟩
  · exact ⟨.nullWord, shallow_of_kind nofun nofun⟩

theorem valueWithin_array_iff {text : Bytes} {items : List Document} :
    ValueWithin (levels + 1) text (.array items) ↔
      Enclosed Byte.openBracket Byte.closeBracket (ValueWithin levels) text items := by
  unfold ValueWithin
  rw [shallow_array_iff, enclosed_and_iff]
  constructor
  · rintro ⟨h, hall⟩
    cases h with
    | array henclosed => exact ⟨henclosed, hall⟩
  · rintro ⟨henclosed, hall⟩
    exact ⟨.array henclosed, hall⟩

/-- Sorting the members moves no value to another level. -/
theorem valueWithin_object_iff {text : Bytes} {members : Keyed Document} :
    ValueWithin (levels + 1) text (.object members) ↔
      ∃ written : Keyed Document,
        Enclosed Byte.openBrace Byte.closeBrace (Member (ValueWithin levels)) text written ∧
          (written.map Prod.fst).Nodup ∧ members.Perm written ∧ members.Ascending := by
  unfold ValueWithin
  rw [shallow_object_iff, member_and_iff]
  simp only [enclosed_and_iff]
  constructor
  · rintro ⟨h, hall⟩
    cases h with
    | object henclosed hnodup hperm hascending =>
        exact ⟨_, ⟨henclosed, fun m hm => hall m (hperm.mem_iff.mpr hm)⟩, hnodup, hperm,
          hascending⟩
  · rintro ⟨written, ⟨henclosed, hall⟩, hnodup, hperm, hascending⟩
    exact ⟨.object henclosed hnodup hperm hascending,
      fun m hm => hall m (hperm.mem_iff.mp hm)⟩

theorem readBegun_sound (hnested : Reads readNested (Led (ValueWithin levels))) {b : UInt8}
    {body rest : Bytes} {d : Document} (h : readBegun readNested b body = .ok (d, rest)) :
    ∃ used, b :: body = used ++ rest ∧ ValueWithin (levels + 1) used d := by
  unfold readBegun at h
  split at h
  · next hb =>
      subst hb
      simp only [except_bind_eq_ok, Prod.exists] at h
      obtain ⟨written, after, hread, h⟩ := h
      obtain ⟨used, htext, henclosed, hadmitted⟩ :=
        readSequence_sound (readMember_reads hnested _) Byte.openBrace hread
      split at h
      · next object hobject =>
          cases h
          obtain ⟨hnodup, members, rfl, hperm, hascending⟩ :=
            Document.ofMembers_eq_ok_iff.mp hobject
          exact ⟨used, htext, valueWithin_object_iff.mpr
            ⟨written, henclosed, hnodup, hperm, hascending⟩⟩
      · cases h
  split at h
  · next hb =>
      subst hb
      simp only [except_bind_eq_ok, Prod.exists] at h
      obtain ⟨items, after, hread, h⟩ := h
      cases h
      obtain ⟨used, htext, henclosed, _⟩ :=
        readSequence_sound (fun _ => hnested.fresh_true) Byte.openBracket hread
      exact ⟨used, htext, valueWithin_array_iff.mpr henclosed⟩
  split at h
  · next hb =>
      subst hb
      simp only [except_bind_eq_ok, Prod.exists] at h
      obtain ⟨text, after, hread, h⟩ := h
      cases h
      obtain ⟨used, htext, hliteral⟩ := readLiteral_sound hread
      exact ⟨used, htext, .string hliteral, shallow_of_kind nofun nofun⟩
  split at h
  · simp only [except_bind_eq_ok, Prod.exists] at h
    obtain ⟨text, after, hread, h⟩ := h
    cases h
    obtain ⟨htext, hnumber⟩ := readNumber_sound hread
    exact ⟨text, htext, .number hnumber, shallow_of_kind nofun nofun⟩
  · obtain ⟨word, htext, hmem⟩ := readWord_sound h
    exact ⟨word, htext, valueWithin_of_mem_valueWords hmem⟩

theorem readBegun_complete (hnested : Reads readNested (Led (ValueWithin levels)))
    {used rest : Bytes} {d : Document} (h : ValueWithin (levels + 1) used d)
    (hends : Ends rest) :
    ∃ b body, used ++ rest = b :: body ∧ readBegun readNested b body = .ok (d, rest) := by
  have hwithin := h
  obtain ⟨hvalue, _⟩ := h
  cases hvalue with
  | trueWord => exact ⟨_, _, rfl, rfl⟩
  | falseWord => exact ⟨_, _, rfl, rfl⟩
  | nullWord => exact ⟨_, _, rfl, rfl⟩
  | number hnumber =>
      have hread := readNumber_complete hnumber hends
      -- The reader asks for brackets and quotes first, none of which begins a number.
      obtain ⟨b, tail, rfl, hb⟩ := hnumber.exists_eq_cons
      refine ⟨b, tail ++ rest, rfl, ?_⟩
      have hbrace : b ≠ Byte.openBrace := ne_of_mem_of_not_mem hb (by decide)
      have hbracket : b ≠ Byte.openBracket := ne_of_mem_of_not_mem hb (by decide)
      have hquote : b ≠ Byte.quote := ne_of_mem_of_not_mem hb (by decide)
      have hdigit : b = Byte.minus ∨ Byte.isDigit b = true :=
        (List.mem_cons.mp hb).imp_right isDigit_iff.mpr
      rw [List.cons_append] at hread
      rw [readBegun, if_neg hbrace, if_neg hbracket, if_neg hquote, if_pos hdigit, hread]
      rfl
  | string hliteral =>
      obtain ⟨body, hbody, hread⟩ := readLiteral_complete hliteral rest
      refine ⟨_, _, hbody, ?_⟩
      rw [readBegun, if_neg (by decide), if_neg (by decide), if_pos rfl, hread]
      rfl
  | array _ =>
      obtain ⟨body, hbody, hread⟩ := readSequence_complete (fun _ => hnested.fresh_true)
        (fun h => h.1.begins) (show Enclosure.array.close ∈ _ by decide)
        (valueWithin_array_iff.mp hwithin) (admitted_true [] _) rest
      refine ⟨_, _, hbody, ?_⟩
      rw [readBegun, if_neg (by decide), if_pos rfl, hread]
      rfl
  | object _ _ _ _ =>
      obtain ⟨written, henclosed, hnodup, hperm, hascending⟩ :=
        valueWithin_object_iff.mp hwithin
      have hadmitted : Admitted FreshKey [] written :=
        admitted_freshKey_iff.mpr ⟨hnodup, fun m _ => List.not_mem_nil⟩
      obtain ⟨body, hbody, hread⟩ := readSequence_complete
        (readMember_reads hnested (used ++ rest)) Member.begins
        (show Enclosure.object.close ∈ _ by decide) henclosed hadmitted rest
      have hobject := Document.ofMembers_eq_ok_iff.mpr ⟨hnodup, _, rfl, hperm, hascending⟩
      refine ⟨_, _, hbody, ?_⟩
      rw [hbody] at hread
      rw [readBegun, if_pos rfl, hread]
      simp only [bind, Except.bind, hobject]
      rfl

/-- With each level that is read, one level less is left for the values within. -/
theorem readValue_reads (levels : Nat) : Reads (readValue levels) (Led (ValueWithin levels)) := by
  induction levels with
  | zero =>
      constructor
      · intro text rest d h
        unfold readValue at h
        split at h <;> cases h
      · rintro _ _ d ⟨_, hvalue⟩
        exact absurd hvalue.2 (not_shallow_zero d)
  | succ levels ih =>
      -- Blanks cost no level; the levels are spent on what stands between brackets.
      constructor
      · intro text rest d h
        unfold readValue at h
        split at h
        · cases h
        · next b body hskip =>
            obtain ⟨_, blanks, hblanks, rfl⟩ := skipSpaces_eq_cons_iff.mp hskip
            obtain ⟨used, htext, hvalue⟩ := readBegun_sound ih h
            refine ⟨blanks ++ used, ?_, .after hblanks hvalue⟩
            rw [htext, List.append_assoc]
      · rintro _ rest d ⟨hblanks, hvalue⟩ hends
        obtain ⟨b, body, htext, hread⟩ := readBegun_complete ih hvalue hends
        obtain ⟨c, tail, rfl, hsolid, _⟩ := hvalue.1.begins
        cases htext
        rw [List.append_assoc, readValue, skipSpaces_append hblanks, List.cons_append,
          skipSpaces_cons hsolid]
        exact hread

/-! ## Documents -/

theorem Padded.exists_readValue_eq {levels : Nat} {text : Bytes} {d : Document}
    (h : Padded (ValueWithin levels) text d) :
    ∃ blanks, Blank blanks ∧ readValue levels text = .ok (d, blanks) := by
  obtain ⟨used, blanks, rfl, hled, hblanks⟩ := h.exists_led
  have hends : Ends blanks := by
    have := ends_nil.blank_append hblanks
    rwa [List.append_nil] at this
  exact ⟨blanks, hblanks, (readValue_reads _).complete hled hends⟩

theorem readWhole_eq_ok_iff {text : Bytes} {d : Document} :
    readWhole text = .ok d ↔ Padded (ValueWithin (maxDepth + 1)) text d := by
  simp only [readWhole, readSpaced, except_bind_eq_ok, Prod.exists]
  constructor
  · rintro ⟨_, _, ⟨_, rest, hread, hrest⟩, h⟩
    cases hrest
    split at h
    · next hempty =>
        cases h
        obtain ⟨used, rfl, hled⟩ := (readValue_reads _).sound hread
        exact hled.padded (skipSpaces_eq_nil_iff.mp (List.isEmpty_iff.mp hempty))
    · cases h
  · intro h
    obtain ⟨blanks, hblanks, hread⟩ := h.exists_readValue_eq
    refine ⟨d, [], ⟨d, blanks, hread, ?_⟩, rfl⟩
    rw [skipSpaces_eq_nil_iff.mpr hblanks]
    rfl

theorem paddedWithin_iff {text : Bytes} {d : Document} :
    Padded (ValueWithin (maxDepth + 1)) text d ↔
      Padded Value text d ∧ ∀ level x, Located d level x → level ≤ 512 := by
  have hshallow : Shallow (maxDepth + 1) d ↔ ∀ level x, Located d level x → level ≤ 512 := by
    simp only [Shallow, maxDepth, Nat.lt_succ_iff]
  rw [← hshallow]
  exact padded_and_iff

/-- A byte order mark is no part of a value, nor of the blanks before it. -/
theorem Padded.not_marked {body : Bytes} {d : Document} :
    ¬ Padded Value (Utf8.byteOrderMark ++ body) d := by
  intro h
  generalize htext : Utf8.byteOrderMark ++ body = text at h
  cases h with
  | @around before _ after _ hbefore hvalue _ =>
      obtain ⟨b, rest, rfl, hb⟩ := hvalue.exists_eq_cons
      have hhead := congrArg List.head? htext
      cases before with
      | nil =>
          cases hhead
          revert hb
          decide
      | cons c before =>
          cases hhead
          have hmark := hbefore 0xef List.mem_cons_self
          revert hmark
          decide

theorem denotes_iff_readWhole {text : Bytes} {d : Document} :
    Denotes text d ↔
      readWhole ((Bytes.after? Utf8.byteOrderMark text).getD text) = .ok d := by
  rw [readWhole_eq_ok_iff, paddedWithin_iff]
  constructor
  · rintro ⟨mark, body, rfl, rfl | rfl, hbody, hdepth⟩
    · cases hafter : Bytes.after? Utf8.byteOrderMark ([] ++ body) with
      | none => exact ⟨hbody, hdepth⟩
      | some unmarked =>
          rw [List.nil_append, Bytes.after?_eq_some_iff] at hafter
          exact absurd (hafter ▸ hbody) Padded.not_marked
    · have hafter : Bytes.after? Utf8.byteOrderMark ([0xef, 0xbb, 0xbf] ++ body) = some body :=
        Bytes.after?_eq_some_iff.mpr rfl
      rw [hafter]
      exact ⟨hbody, hdepth⟩
  · rintro ⟨hbody, hdepth⟩
    cases hafter : Bytes.after? Utf8.byteOrderMark text with
    | none =>
        rw [hafter] at hbody
        exact ⟨[], text, rfl, Or.inl rfl, hbody, hdepth⟩
    | some body =>
        rw [hafter] at hbody
        exact ⟨_, body, Bytes.after?_eq_some_iff.mp hafter, Or.inr rfl, hbody, hdepth⟩

theorem read_eq_some_iff {report report' : Report} {d : Document} :
    Document.read report = .ok (some d, report') ↔
      Denotes report.source.bytes d ∧ report' = report := by
  rw [denotes_iff_readWhole, Document.read_eq_settle]
  cases Bytes.after? Utf8.byteOrderMark report.source.bytes with
  | none => exact Report.settle_eq_some_iff
  | some body => exact Report.settle_eq_some_iff

/-- Reading records nothing in a report when it gives a document. -/
theorem ofText_eq_ok_iff {text : Bytes} {d : Document} :
    Document.ofText text = .ok d ↔ Denotes text d := by
  constructor
  · intro h
    unfold Document.ofText at h
    split at h
    · cases h
    · next document? report hread =>
        split at h
        · cases h
          exact (read_eq_some_iff.mp hread).1
        · cases h
        · cases h
  · intro h
    have hread : Document.read (.ofBytes text) = .ok (some d, .ofBytes text) :=
      read_eq_some_iff.mpr ⟨h, rfl⟩
    rw [Document.ofText, hread]
    rfl

/--
A text is read, with or without a report to keep, as the document that it
denotes, and every other text is refused.
-/
theorem reads_iff_denotes (report : Report) (document : Document) :
    (Document.ofText report.source.bytes = .ok document ↔
        Denotes report.source.bytes document) ∧
      ((∃ report', Document.read report = .ok (some document, report')) ↔
        Denotes report.source.bytes document) := by
  refine ⟨ofText_eq_ok_iff, ?_⟩
  constructor
  · rintro ⟨_, hread⟩
    exact (read_eq_some_iff.mp hread).1
  · intro h
    exact ⟨report, read_eq_some_iff.mpr ⟨h, rfl⟩⟩

end JsonTable.Json
