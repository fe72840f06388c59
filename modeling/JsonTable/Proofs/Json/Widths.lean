import JsonTable.Document.Printer
import JsonTable.Proofs.Json.Grammar

/-!
# Widths of indentations

At the indentation that asks for one line, printing with machine words gives the compact text.
At any other it gives the text over lines as long as no line needs more spaces than the padding
allows, and fails as soon as one does: where a sum of indentations wraps, the bracket that closes
the document is already too far in.
-/

namespace JsonTable

open Bytes

namespace Indent

open Classical in
noncomputable def guarded (condition : Prop) (text : Bytes) : Except WidthError Bytes :=
  if condition then .ok text else .error .tooBig

theorem guarded_pos {condition : Prop} (h : condition) (text : Bytes) :
    guarded condition text = .ok text :=
  if_pos h

theorem guarded_neg {condition : Prop} (h : ¬ condition) (text : Bytes) :
    guarded condition text = .error .tooBig :=
  if_neg h

theorem guarded_congr {condition other : Prop} (h : condition ↔ other) (text : Bytes) :
    guarded condition text = guarded other text :=
  congrArg (guarded · text) (propext h)

theorem map_guarded (f : Bytes → Bytes) (condition : Prop) (text : Bytes) :
    f <$> guarded condition text = guarded condition (f text) := by
  by_cases h : condition
  · rw [guarded_pos h, guarded_pos h]
    rfl
  · rw [guarded_neg h, guarded_neg h]
    rfl

theorem guarded_bind {condition other : Prop} {text result : Bytes}
    {next : Bytes → Except WidthError Bytes} (h : next text = guarded other result) :
    guarded condition text >>= next = guarded (condition ∧ other) result := by
  by_cases hcondition : condition
  · rw [guarded_pos hcondition, guarded_congr (and_iff_right hcondition), ← h]
    rfl
  · rw [guarded_neg hcondition, guarded_neg (fun hboth => hcondition hboth.1)]
    rfl

theorem guarded_bind_pure (f : Bytes → Bytes) (condition : Prop) (text : Bytes) :
    (guarded condition text >>= fun text => pure (f text)) = guarded condition (f text) := by
  rw [bind_pure_comp, map_guarded]

/-- There is one failure, so it does not matter which step fails first. -/
theorem bind_tooBig (first : Except WidthError Bytes) :
    (first >>= fun _ => (.error .tooBig : Except WidthError Bytes)) = .error .tooBig := by
  cases first with
  | ok text => rfl
  | error failure =>
      cases failure
      rfl

theorem pad_eq (width : UInt64) :
    pad width = guarded (width.toNat ≤ widest) (List.replicate width.toNat Byte.space) := by
  by_cases h : width.toNat ≤ widest
  · rw [pad, if_pos h, guarded_pos h]
  · rw [pad, if_neg h, guarded_neg h]

theorem newline_eq {indent : UInt64} (hindent : indent ≠ npos) (width : UInt64) :
    newline indent width =
      guarded (width.toNat ≤ widest) (Layout.indented width.toNat).newline := by
  rw [newline, if_neg hindent, pad_eq, map_guarded, Layout.newline]

theorem colon_eq {indent : UInt64} (hindent : indent ≠ npos) (layout : Nat) :
    colon indent = (Layout.indented layout).colon :=
  if_neg hindent

theorem ne_npos_of_le {indent : UInt64} (h : indent.toNat ≤ widest) : indent ≠ npos := by
  rintro rfl
  exact absurd h (by decide)

theorem toNat_add_two {indent : UInt64} (h : indent.toNat ≤ widest) :
    (indent + 2).toNat = indent.toNat + 2 := by
  have hsum : (indent + 2).toNat = (indent.toNat + 2) % 2 ^ 64 := UInt64.toNat_add indent 2
  rw [widest] at h
  omega

theorem deeper_eq {indent : UInt64} (hindent : indent ≠ npos) : deeper indent = indent + 2 :=
  if_neg hindent

theorem add_two_ne_npos {indent : UInt64} (h : indent.toNat ≤ widest) : indent + 2 ≠ npos := by
  intro hnpos
  have hsum := toNat_add_two h
  rw [hnpos] at hsum
  rw [widest] at h
  have hvalue : npos.toNat = 18446744073709551615 := rfl
  omega

end Indent

namespace Document

open Json Indent

/-- No line of the document needs more spaces than padding allows, from an indentation on. -/
def Fits (indent : Nat) (d : Document) : Prop :=
  ∀ level x, Located d level x → level ≠ 0 → indent + 2 * level ≤ widest

section Fits

variable {indent : Nat}

theorem fits_array_iff {items : List Document} :
    Fits indent (.array items) ↔ ∀ item ∈ items, indent + 2 ≤ widest ∧ Fits (indent + 2) item := by
  constructor
  · intro h item hitem
    refine ⟨h 1 item (.item hitem .top) Nat.one_ne_zero, fun level x hx _ => ?_⟩
    have hle := h (level + 1) x (.item hitem hx) (Nat.succ_ne_zero level)
    omega
  · intro h level x hx hlevel
    cases hx with
    | top => exact absurd rfl hlevel
    | @item _ item _ level hitem hx =>
        obtain ⟨htop, hfits⟩ := h item hitem
        by_cases hzero : level = 0
        · rw [hzero]
          exact htop
        · have hle := hfits level x hx hzero
          omega

theorem fits_object_iff {members : Keyed Document} :
    Fits indent (.object members) ↔
      ∀ m ∈ members, indent + 2 ≤ widest ∧ Fits (indent + 2) m.2 := by
  constructor
  · intro h m hm
    refine ⟨h 1 m.2 (.member hm .top) Nat.one_ne_zero, fun level x hx _ => ?_⟩
    have hle := h (level + 1) x (.member hm hx) (Nat.succ_ne_zero level)
    omega
  · intro h level x hx hlevel
    cases hx with
    | top => exact absurd rfl hlevel
    | @member _ key value _ level hm hx =>
        obtain ⟨htop, hfits⟩ := h (key, value) hm
        by_cases hzero : level = 0
        · rw [hzero]
          exact htop
        · have hle := hfits level x hx hzero
          omega

theorem fits_of_kind {d : Document} (harray : d.kind ≠ .array) (hobject : d.kind ≠ .object) :
    Fits indent d := by
  intro level x hx hlevel
  cases hx with
  | top => exact absurd rfl hlevel
  | item => exact absurd rfl harray
  | member => exact absurd rfl hobject

theorem fits_empty_array : Fits indent (.array []) :=
  fits_array_iff.mpr (List.forall_mem_nil _)

theorem fits_empty_object : Fits indent (.object []) :=
  fits_object_iff.mpr (List.forall_mem_nil _)

/-- The bracket that closes stands before the items, so there is room for it too. -/
theorem Fits.le_widest_of_array {items : List Document} (h : Fits indent (.array items))
    (hitems : ¬ items.isEmpty = true) : indent ≤ widest := by
  obtain ⟨item, hitem⟩ := List.exists_mem_of_ne_nil items (mt List.isEmpty_iff.mpr hitems)
  exact Nat.le_of_add_right_le (fits_array_iff.mp h item hitem).1

theorem Fits.le_widest_of_object {members : Keyed Document} (h : Fits indent (.object members))
    (hmembers : ¬ members.isEmpty = true) : indent ≤ widest := by
  obtain ⟨m, hm⟩ := List.exists_mem_of_ne_nil members (mt List.isEmpty_iff.mpr hmembers)
  exact Nat.le_of_add_right_le (fits_object_iff.mp h m hm).1

/-- What stands some levels down begins two spaces further in for each level. -/
theorem Fits.of_located {d x : Document} {level : Nat} (hx : Located d level x)
    (h : Fits indent d) : Fits (indent + 2 * level) x := by
  induction hx generalizing indent with
  | top => exact h
  | @item items item x level hitem _ ih =>
      have hindent : indent + 2 * (level + 1) = indent + 2 + 2 * level := by omega
      rw [hindent]
      exact ih (fits_array_iff.mp h item hitem).2
  | @member members key value x level hm _ ih =>
      have hindent : indent + 2 * (level + 1) = indent + 2 + 2 * level := by omega
      rw [hindent]
      exact ih (fits_object_iff.mp h (key, value) hm).2

end Fits

/-! ## On one line -/

mutual

theorem prettyPrint_npos : (d : Document) → d.prettyPrint npos = .ok (d.print .compact)
  | .invalid => rfl
  | .null => rfl
  | .bool _ => rfl
  | .number _ => rfl
  | .string _ => rfl
  | .array items => by
      rw [prettyPrint, print, prettyPrintItems_npos items]
      by_cases hempty : items.isEmpty = true
      · rw [if_pos hempty, if_pos hempty]
        rfl
      · rw [if_neg hempty, if_neg hempty]
        rfl
  | .object members => by
      rw [prettyPrint, print, prettyPrintMembers_npos members]
      by_cases hempty : members.isEmpty = true
      · rw [if_pos hempty, if_pos hempty]
        rfl
      · rw [if_neg hempty, if_neg hempty]
        rfl

theorem prettyPrintItems_npos : (items : List Document) →
    prettyPrintItems npos items = .ok (printItems .compact items)
  | [] => rfl
  | item :: items => by
      rw [prettyPrintItems, deeper, if_pos rfl, prettyPrint_npos item,
        prettyPrintItems_npos items]
      rfl

theorem prettyPrintMembers_npos : (members : List (Bytes × Document)) →
    prettyPrintMembers npos members = .ok (printMembers .compact members)
  | [] => rfl
  | (key, value) :: members => by
      rw [prettyPrintMembers, deeper, if_pos rfl, prettyPrint_npos value,
        prettyPrintMembers_npos members]
      rfl

end

/-! ## Over lines -/

mutual

theorem prettyPrint_eq : (d : Document) → (indent : UInt64) → indent ≠ npos →
    d.prettyPrint indent = guarded (Fits indent.toNat d) (d.print (.indented indent.toNat))
  | .invalid, _, _ => (guarded_pos (fits_of_kind (d := .invalid) Kind.noConfusion Kind.noConfusion) _).symm
  | .null, _, _ => (guarded_pos (fits_of_kind (d := .null) Kind.noConfusion Kind.noConfusion) _).symm
  | .bool value, _, _ => (guarded_pos (fits_of_kind (d := .bool value) Kind.noConfusion Kind.noConfusion) _).symm
  | .number text, _, _ => (guarded_pos (fits_of_kind (d := .number text) Kind.noConfusion Kind.noConfusion) _).symm
  | .string text, _, _ => (guarded_pos (fits_of_kind (d := .string text) Kind.noConfusion Kind.noConfusion) _).symm
  | .array items, indent, hindent => by
      rw [prettyPrint, print, newline_eq hindent]
      by_cases hempty : items.isEmpty = true
      · rw [if_pos hempty, if_pos hempty, List.isEmpty_iff.mp hempty]
        exact (guarded_pos fits_empty_array _).symm
      · rw [if_neg hempty, if_neg hempty]
        by_cases hle : indent.toNat ≤ widest
        · rw [prettyPrintItems_eq items indent hle]
          refine (guarded_bind (guarded_bind_pure _ _ _)).trans (guarded_congr ?_ _)
          exact and_iff_left hle
        · rw [guarded_neg hle, guarded_neg fun hfits => hle (hfits.le_widest_of_array hempty)]
          exact bind_tooBig _
  | .object members, indent, hindent => by
      rw [prettyPrint, print, newline_eq hindent]
      by_cases hempty : members.isEmpty = true
      · rw [if_pos hempty, if_pos hempty, List.isEmpty_iff.mp hempty]
        exact (guarded_pos fits_empty_object _).symm
      · rw [if_neg hempty, if_neg hempty]
        by_cases hle : indent.toNat ≤ widest
        · rw [prettyPrintMembers_eq members indent hle]
          refine (guarded_bind (guarded_bind_pure _ _ _)).trans (guarded_congr ?_ _)
          exact and_iff_left hle
        · rw [guarded_neg hle, guarded_neg fun hfits => hle (hfits.le_widest_of_object hempty)]
          exact bind_tooBig _

theorem prettyPrintItems_eq : (items : List Document) → (indent : UInt64) →
    indent.toNat ≤ widest →
    prettyPrintItems indent items =
      guarded (Fits indent.toNat (.array items)) (printItems (.indented (indent.toNat + 2)) items)
  | [], _, _ => (guarded_pos fits_empty_array _).symm
  | item :: items, indent, hle => by
      have hindent := ne_npos_of_le hle
      have hitem := prettyPrint_eq item (indent + 2) (add_two_ne_npos hle)
      have hitems := prettyPrintItems_eq items indent hle
      rw [toNat_add_two hle] at hitem
      rw [prettyPrintItems, newline_eq hindent, deeper_eq hindent, hitem, hitems,
        toNat_add_two hle, fits_array_iff, fits_array_iff, List.forall_mem_cons, and_assoc]
      exact guarded_bind (guarded_bind (guarded_bind_pure _ _ _))

theorem prettyPrintMembers_eq : (members : List (Bytes × Document)) → (indent : UInt64) →
    indent.toNat ≤ widest →
    prettyPrintMembers indent members =
      guarded (Fits indent.toNat (.object members))
        (printMembers (.indented (indent.toNat + 2)) members)
  | [], _, _ => (guarded_pos fits_empty_object _).symm
  | (key, value) :: members, indent, hle => by
      have hindent := ne_npos_of_le hle
      have hvalue := prettyPrint_eq value (indent + 2) (add_two_ne_npos hle)
      have hmembers := prettyPrintMembers_eq members indent hle
      rw [toNat_add_two hle] at hvalue
      rw [prettyPrintMembers, newline_eq hindent, deeper_eq hindent, hvalue, hmembers,
        toNat_add_two hle, colon_eq hindent (indent.toNat + 2), fits_object_iff, fits_object_iff,
        List.forall_mem_cons, and_assoc]
      exact guarded_bind (guarded_bind (guarded_bind_pure _ _ _))

end

end Document

end JsonTable
