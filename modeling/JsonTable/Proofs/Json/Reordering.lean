import JsonTable.Extraction
import JsonTable.Proofs.Json.Printing
import JsonTable.Proofs.Reports

/-!
# The order of members

An object is a finite map: it is built from its members in any order, and the order
cannot be told from the object, neither by looking up keys nor by printing it. So texts
that list the members of their objects differently, with other blanks between, denote one
document, and every program makes the same table from them.
-/

namespace JsonTable

open Bytes

/-- A document finds under each key what the entries have there, by either way of looking. -/
structure Document.MapOf (entries : Keyed Document) (d : Document) : Prop where
  finds : ∀ key value, (key, value) ∈ entries → d.lookup key = some value
  misses : ∀ key, key ∉ entries.map Prod.fst → d.lookup key = none
  halves : ∀ key, d.search? key = d.lookup key

theorem Document.mapOf_of_ofMembers {entries : Keyed Document} {d : Document}
    (h : ofMembers entries = .ok d) : d.MapOf entries := by
  obtain ⟨_, members, rfl, hperm, hascending⟩ := ofMembers_eq_ok_iff.mp h
  constructor
  · intro key value hentry
    exact (Keyed.lookup_eq_some_iff_mem hascending.nodup).mpr (hperm.mem_iff.mpr hentry)
  · intro key hkey
    rw [lookup_object, List.lookup_eq_none_iff]
    intro entry hentry
    refine bne_iff_ne.mpr fun heq => hkey ?_
    rw [heq]
    exact List.mem_map_of_mem (hperm.mem_iff.mp hentry)
  · intro key
    exact Keyed.search?_eq_lookup hascending key

theorem Document.ofMembers_perm {entries others : Keyed Document} {d : Document}
    (h : ofMembers entries = .ok d) (hperm : others.Perm entries) : ofMembers others = .ok d := by
  obtain ⟨hnodup, members, rfl, hmembers, hascending⟩ := ofMembers_eq_ok_iff.mp h
  exact ofMembers_eq_ok_iff.mpr ⟨(hperm.map Prod.fst).nodup_iff.mpr hnodup, members, rfl,
    hmembers.trans hperm.symm, hascending⟩

theorem Document.ofMembers_fails_iff {entries : Keyed Document} :
    (∃ misuse, ofMembers entries = .error misuse) ↔
      ∃ key, (entries.map Prod.fst).Duplicate key := by
  constructor
  · intro h
    obtain ⟨misuse, h⟩ := h
    obtain ⟨key, _, hkey⟩ := ofMembers_eq_error_iff.mp h
    exact ⟨key, hkey.repeated⟩
  · intro h
    cases hdocument : ofMembers entries with
    | error misuse => exact ⟨misuse, rfl⟩
    | ok d =>
        exact absurd (ofMembers_eq_ok_iff.mp hdocument).1 (List.exists_duplicate_iff_not_nodup.mp h)

namespace Json

/-! ## Sequences of other items -/

section Items

variable {α β γ : Type} {Item : Bytes → α → Prop} {Other : Bytes → β → Prop} {f : γ → α}
  {g : γ → β} {text : Bytes}

theorem Padded.replace {x : α} {y : β} (h : Padded Item text x)
    (himp : ∀ t, Item t x → Other t y) : Padded Other text y := by
  obtain ⟨hbefore, hitem, hafter⟩ := h
  exact .around hbefore (himp _ hitem) hafter

theorem Separated.replace {xs : List γ} (h : Separated Item text (xs.map f))
    (himp : ∀ x ∈ xs, ∀ t, Item t (f x) → Other t (g x)) :
    Separated Other text (xs.map g) := by
  induction xs generalizing text with
  | nil => cases h
  | cons x xs ih =>
      have hx := himp x List.mem_cons_self
      cases xs with
      | nil =>
          cases h with
          | last hpadded => exact .last (hpadded.replace hx)
          | cons _ hrest => cases hrest
      | cons y ys =>
          cases h with
          | cons hpadded hrest =>
              exact .cons (hpadded.replace hx)
                (ih hrest fun z hz => himp z (List.mem_cons_of_mem x hz))

theorem Enclosed.replace {first last : UInt8} {xs : List γ}
    (h : Enclosed first last Item text (xs.map f))
    (himp : ∀ x ∈ xs, ∀ t, Item t (f x) → Other t (g x)) :
    Enclosed first last Other text (xs.map g) := by
  cases xs with
  | nil =>
      cases h with
      | empty hblanks => exact .empty hblanks
      | items hseparated => cases hseparated
  | cons x xs =>
      cases h with
      | items hseparated => exact .items (hseparated.replace himp)

theorem Member.replace {key : Bytes} {x : α} {y : β} (h : Member Item text (key, x))
    (himp : ∀ t, Item t x → Other t y) : Member Other text (key, y) := by
  obtain ⟨hliteral, hbefore, hafter, hitem⟩ := h
  exact .pair hliteral hbefore hafter (himp _ hitem)

end Items

/-! ## Texts that are alike -/

/--
Texts of values that differ only in the blanks between the tokens and in the order in which
they have the members of objects. As in every text of a value, no two members have one key.
-/
inductive Alike : Bytes → Bytes → Prop where
  | same {text : Bytes} {d : Document} : Value text d → Alike text text
  | array {text other : Bytes} {items : List (Bytes × Bytes)} :
      Enclosed Byte.openBracket Byte.closeBracket Eq text (items.map Prod.fst) →
      Enclosed Byte.openBracket Byte.closeBracket Eq other (items.map Prod.snd) →
      (∀ item ∈ items, Alike item.1 item.2) → Alike text other
  | object {text other : Bytes} {members reordered : Keyed (Bytes × Bytes)} :
      Enclosed Byte.openBrace Byte.closeBrace (Member Eq) text
        (members.map fun m => (m.1, m.2.1)) →
      Enclosed Byte.openBrace Byte.closeBrace (Member Eq) other
        (reordered.map fun m => (m.1, m.2.2)) →
      reordered.Perm members → (members.map Prod.fst).Nodup →
      (∀ m ∈ members, Alike m.2.1 m.2.2) → Alike text other

/-- A text with a value's text in it, and around that nothing but blanks and a byte order mark. -/
def Wraps (text inner : Bytes) : Prop :=
  ∃ mark body, text = mark ++ body ∧ (mark = [] ∨ mark = [0xef, 0xbb, 0xbf]) ∧
    Padded Eq body inner

theorem Wraps.denotes_iff {text inner : Bytes} {d e : Document} (h : Wraps text inner)
    (hvalue : Value inner d) :
    Denotes text e ↔ e = d ∧ ∀ level x, Located d level x → level ≤ 512 := by
  obtain ⟨mark, body, rfl, hmark, hbody⟩ := h
  exact denotes_iff_of_padded hmark (hbody.replace fun t heq => heq ▸ hvalue)

/-- By induction over the texts: the values within come first, then the one around them. -/
theorem Alike.exists_value {text other : Bytes} (h : Alike text other) :
    ∃ d, Value text d ∧ Value other d := by
  induction h with
  | same hvalue => exact ⟨_, hvalue, hvalue⟩
  | @array text other items htext hother _ ih =>
      choose! document hfirst hsecond using ih
      refine ⟨.array (items.map document), ?_, ?_⟩
      · exact .array (htext.replace fun item hitem t heq => heq ▸ hfirst item hitem)
      · exact .array (hother.replace fun item hitem t heq => heq ▸ hsecond item hitem)
  | @object text other members reordered htext hother hperm hnodup _ ih =>
      choose! document hfirst hsecond using ih
      let entry (m : Bytes × Bytes × Bytes) : Bytes × Document := (m.1, document m)
      have hkeys : ((members.map entry).map Prod.fst).Nodup := by
        rwa [List.map_map, show Prod.fst ∘ entry = Prod.fst from rfl]
      have hentries : (reordered.map entry).Perm (members.map entry) := hperm.map entry
      have hascending := Keyed.ascending_sort hkeys
      have hsorted := Keyed.sort_perm (members.map entry)
      refine ⟨.object (Keyed.sort (members.map entry)), ?_, ?_⟩
      · refine .object (htext.replace fun m hm t hmember => ?_) hkeys hsorted hascending
        exact hmember.replace fun _ heq => heq ▸ hfirst m hm
      · refine .object (hother.replace fun m hm t hmember => ?_)
          ((hentries.map Prod.fst).nodup_iff.mpr hkeys) (hsorted.trans hentries.symm) hascending
        exact hmember.replace fun _ heq => heq ▸ hsecond m (hperm.mem_iff.mp hm)

/-! ## Documents that were read -/

theorem Printable.of_located {d x : Document} {level : Nat} (h : Printable d)
    (hx : Located d level x) : Printable x := by
  induction hx with
  | top => exact h
  | item hitem _ ih => exact ih (printable_array_iff.mp h _ hitem)
  | member hmember _ ih => exact ih ((printable_object_iff.mp h).2 _ hmember)

/-- In a document that was read, halving is as good as going through the members. -/
theorem search?_of_denotes {text : Bytes} {d x : Document} {level : Nat} (h : Denotes text d)
    (hx : Located d level x) (key : Bytes) : x.search? key = x.lookup key :=
  Document.search?_eq_lookup ((printable_of_denotes h).of_located hx).canonical key

/--
An object is the finite map of its members. It cannot be built if a key stands twice, and
then the smallest such key is named; otherwise looking up gives what stands under each key,
and nothing under the others, and from the members in another order an object is built that
is equal and is printed alike. Texts which differ in blanks and the order of members at any
depth stand for one value. They are both refused, if it is too deep, or give this document
and, with every program, one table; and in it halving finds the members of every object.
-/
theorem order_of_members_is_immaterial :
    (∀ entries : Keyed Document,
      ((∃ misuse, Document.ofMembers entries = .error misuse) ↔
        ∃ key, (entries.map Prod.fst).Duplicate key) ∧
      (∀ misuse, Document.ofMembers entries = .error misuse →
        ∃ key, misuse = .repeatedMember key ∧ entries.SmallestRepeated key) ∧
      ∀ d, Document.ofMembers entries = .ok d →
        d.MapOf entries ∧
        ∀ others : Keyed Document, others.Perm entries →
          ∃ e, Document.ofMembers others = .ok e ∧ (e == d) = true ∧ e.compact = d.compact ∧
            ∀ indent, e.pretty indent = d.pretty indent) ∧
    ∀ text other inner reordered, Wraps text inner → Wraps other reordered →
      Alike inner reordered →
      ∃ d, Value inner d ∧ Value reordered d ∧ ∀ t ∈ [text, other],
        ((∃ level x, Located d level x ∧ 512 < level) → ∀ e, Document.ofText t ≠ .ok e) ∧
        ((∀ level x, Located d level x → level ≤ 512) →
          Document.ofText t = .ok d ∧
          (∀ program : Program, program.extractText t = .ok (program.extract d)) ∧
          ∀ level x key, Located d level x → x.search? key = x.lookup key) := by
  constructor
  · intro entries
    refine ⟨Document.ofMembers_fails_iff, fun misuse h => Document.ofMembers_eq_error_iff.mp h,
      fun d h => ⟨Document.mapOf_of_ofMembers h, fun others hperm => ?_⟩⟩
    exact ⟨d, Document.ofMembers_perm h hperm, beq_self_eq_true d, rfl, fun _ => rfl⟩
  · intro text other inner reordered htext hother halike
    obtain ⟨d, hinner, hreordered⟩ := halike.exists_value
    refine ⟨d, hinner, hreordered, fun t ht => ?_⟩
    have hdenotes (e : Document) :
        Denotes t e ↔ e = d ∧ ∀ level x, Located d level x → level ≤ 512 := by
      cases List.mem_cons.mp ht with
      | inl heq => exact heq ▸ htext.denotes_iff hinner
      | inr hmem => exact List.mem_singleton.mp hmem ▸ hother.denotes_iff hreordered
    constructor
    · intro hdeep e hread
      obtain ⟨level, x, hx, hlevel⟩ := hdeep
      have hle := ((hdenotes e).mp (ofText_eq_ok_iff.mp hread)).2 level x hx
      exact Nat.not_lt_of_le hle hlevel
    · intro hdepth
      have hread := (hdenotes d).mpr ⟨rfl, hdepth⟩
      refine ⟨ofText_eq_ok_iff.mpr hread, fun program => ?_, fun level x key hx => ?_⟩
      · exact except_map_eq_ok.mpr ⟨d, ofText_eq_ok_iff.mpr hread, rfl⟩
      · exact search?_of_denotes hread hx key

/-- One key is the beginning of another, one is not ASCII, and one text begins with a mark. -/
theorem order_of_members_is_immaterial_within_array :
    let entries : Keyed Document :=
      [([0xc3, 0xa4], .null), (ascii "ab", .bool true), (ascii "a", .bool false)]
    let text := ascii "\x7b \"b\":null, \"a\":[\x7b\"y\":true,\"x\":null\x7d]\x7d"
    let other := ascii "\x7b\"a\":[\x7b\"x\":null,\"y\":true\x7d],\"b\":null\x7d"
    let d : Document := .object [(ascii "a",
      .array [.object [(ascii "x", .null), (ascii "y", .bool true)]]), (ascii "b", .null)]
    (∃ built, Document.ofMembers entries = .ok built ∧ built.MapOf entries) ∧
      ∀ t ∈ [text, [0xef, 0xbb, 0xbf] ++ other], Document.ofText t = .ok d := by
  intro entries text other d
  obtain ⟨hobjects, htexts⟩ := order_of_members_is_immaterial
  constructor
  · obtain ⟨_, _, hbuilt⟩ := hobjects entries
    have hnodup : (entries.map Prod.fst).Nodup := by decide
    have hdocument := Document.ofMembers_eq_ok_iff.mpr ⟨hnodup, _, rfl,
      Keyed.sort_perm entries, Keyed.ascending_sort hnodup⟩
    exact ⟨_, hdocument, (hbuilt _ hdocument).1⟩
  · have hspace : Blank [Byte.space] := by
      intro b hb
      rw [List.mem_singleton.mp hb]
      decide
    have hmembers {blanks : Bytes} (hblanks : Blank blanks) (members : Keyed Bytes) :=
      enclosed_intercalate Byte.openBrace Byte.closeBrace hblanks blank_nil
        fun m (_ : m ∈ members) => member_quoteString .compact m.1 (Eq.refl m.2)
    have hitems (items : List Bytes) := enclosed_intercalate Byte.openBracket Byte.closeBracket
      blank_nil blank_nil fun item (_ : item ∈ items) => Eq.refl item
    let null := (ascii "null", ascii "null")
    let inner :=
      (ascii "\x7b\"y\":true,\"x\":null\x7d", ascii "\x7b\"x\":null,\"y\":true\x7d")
    let list := (ascii "[" ++ inner.1 ++ ascii "]", ascii "[" ++ inner.2 ++ ascii "]")
    have hinner : Alike inner.1 inner.2 := by
      let x := (ascii "x", null)
      let y := (ascii "y", ascii "true", ascii "true")
      refine @Alike.object _ _ [y, x] [x, y] (hmembers blank_nil [(y.1, y.2.1), (x.1, x.2.1)])
        (hmembers blank_nil [(x.1, x.2.2), (y.1, y.2.2)]) (.swap _ _ _) (by decide) ?_
      exact List.forall_mem_cons.mpr
        ⟨.same .trueWord, List.forall_mem_singleton.mpr (.same .nullWord)⟩
    have hlist : Alike list.1 list.2 := @Alike.array _ _ [inner] (hitems [inner.1])
      (hitems [inner.2]) (List.forall_mem_singleton.mpr hinner)
    have houter : Alike text other := by
      let a := (ascii "a", list)
      let b := (ascii "b", null)
      refine @Alike.object _ _ [b, a] [a, b] (hmembers hspace [(b.1, b.2.1), (a.1, a.2.1)])
        (hmembers blank_nil [(a.1, a.2.2), (b.1, b.2.2)]) (.swap _ _ _) (by decide) ?_
      exact List.forall_mem_cons.mpr ⟨.same .nullWord, List.forall_mem_singleton.mpr hlist⟩
    obtain ⟨e, _, hother, hread⟩ := htexts text ([0xef, 0xbb, 0xbf] ++ other) text other
      ⟨[], text, rfl, Or.inl rfl, .bare rfl⟩ ⟨_, other, rfl, Or.inr rfl, .bare rfl⟩ houter
    have hascending (x y : Document) {j k : Bytes} (hkeys : j < k) :
        Keyed.Ascending [(j, x), (k, y)] :=
      List.pairwise_cons.mpr ⟨List.forall_mem_singleton.mpr hkeys, List.pairwise_singleton _ _⟩
    have hprintable : Printable d := by
      refine printable_object_iff.mpr ⟨hascending _ _ (by decide), List.forall_mem_cons.mpr
        ⟨?_, List.forall_mem_singleton.mpr printable_null⟩⟩
      refine printable_array_iff.mpr (List.forall_mem_singleton.mpr ?_)
      refine printable_object_iff.mpr ⟨hascending _ _ (by decide), List.forall_mem_cons.mpr
        ⟨printable_null, List.forall_mem_singleton.mpr ?_⟩⟩
      exact printable_of_kind nofun nofun nofun nofun
    have hshallow : Shallow 513 d := by
      refine shallow_object_iff.mpr (List.forall_mem_cons.mpr
        ⟨?_, List.forall_mem_singleton.mpr (shallow_of_kind nofun nofun)⟩)
      refine shallow_array_iff.mpr (List.forall_mem_singleton.mpr ?_)
      exact shallow_object_iff.mpr (List.forall_mem_cons.mpr ⟨shallow_of_kind nofun nofun,
        List.forall_mem_singleton.mpr (shallow_of_kind nofun nofun)⟩)
    obtain rfl : e = d := (Padded.bare hother).unique (padded_print hprintable .compact)
    intro t ht
    exact ((hread t ht).2 fun level x hx => Nat.le_of_lt_succ (hshallow level x hx)).1

end Json

end JsonTable
