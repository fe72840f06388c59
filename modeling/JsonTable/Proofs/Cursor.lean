import JsonTable.Cursor
import JsonTable.Fault

/-!
# Positions and what is left

A reader that goes by position and one that takes the bytes that are left agree if they give
the same result, the bytes left beginning at the position reached, or stop for the same reason,
which has a range for the one and a number of bytes left for the other. What holds of a reader
of bytes so holds of the one by position. No byte is looked at that is not there: that would be
a misuse, and the reader of bytes has none to agree with.
-/

namespace JsonTable

open Bytes

namespace Source

/-- The bytes left at a position, which reading has reached that began at `start`. -/
structure At (source : Source) (start position : Nat) (rest : Bytes) : Prop where
  start_le : start ≤ position
  left : ∃ before, source.bytes = before ++ rest ∧ before.length = position

section At

variable {source : Source} {start position : Nat} {b : UInt8} {rest used : Bytes}

theorem at_start (h : start ≤ source.size) :
    source.At start start (source.bytes.drop start) := by
  refine ⟨Nat.le_refl start, source.bytes.take start, (List.take_append_drop start _).symm, ?_⟩
  rw [List.length_take, ← size_eq, Nat.min_eq_left h]

theorem At.drop_eq (h : source.At start position rest) : source.bytes.drop position = rest := by
  obtain ⟨before, hbytes, rfl⟩ := h.left
  rw [hbytes, List.drop_left]

theorem At.size_eq (h : source.At start position rest) :
    source.size = position + rest.length := by
  obtain ⟨before, hbytes, rfl⟩ := h.left
  rw [source.size_eq, hbytes, List.length_append]

theorem At.append (h : source.At start position (used ++ rest)) :
    source.At start (position + used.length) rest := by
  obtain ⟨before, hbytes, rfl⟩ := h.left
  refine ⟨Nat.le_add_right_of_le h.start_le, before ++ used, ?_, List.length_append⟩
  rw [hbytes, List.append_assoc]

theorem At.tail (h : source.At start position (b :: rest)) :
    source.At start (position + 1) rest :=
  (show source.At start position ([b] ++ rest) from h).append

theorem At.from_here (h : source.At start position rest) : source.At position position rest :=
  ⟨Nat.le_refl position, h.left⟩

theorem At.lt_size (h : source.At start position (b :: rest)) : position < source.size := by
  rw [h.size_eq, List.length_cons]
  omega

theorem At.eq_size (h : source.At start position []) : position = source.size :=
  h.size_eq.symm

theorem At.not_lt_size (h : source.At start position []) : ¬ position < source.size :=
  Nat.not_lt_of_le (Nat.le_of_eq h.eq_size.symm)

theorem At.byte (h : source.At start position (b :: rest)) : source.byte position = .ok b := by
  have hcell : source.cells[position]? = some b := by
    obtain ⟨before, hbytes, rfl⟩ := h.left
    rw [← Array.getElem?_toList, source.cells_eq, hbytes, List.getElem?_append_right (Nat.le_refl _),
      Nat.sub_self, List.getElem?_cons_zero]
  rw [Source.byte, byteAt, hcell]
  rfl

theorem At.byte_bind {α : Type} (h : source.At start position (b :: rest))
    (next : UInt8 → Scan α) : source.byte position >>= next = next b := by
  rw [h.byte]
  rfl

theorem At.text (h : source.At start position rest) (count : Nat) :
    source.text position count = .ok (rest.take count) := by
  have hle : position ≤ source.size := by
    rw [h.size_eq]
    exact Nat.le_add_right _ _
  rw [Source.text, slice, if_pos hle, h.drop_eq]
  rfl

theorem At.hasAt (h : source.At start position rest) (part : Bytes) :
    source.hasAt position part = part.isPrefixOf rest := by
  have hle : position ≤ source.size := by
    rw [h.size_eq]
    exact Nat.le_add_right _ _
  rw [Source.hasAt, decide_eq_true hle, h.drop_eq, Bool.true_and]

theorem At.hasAt_of_after? {part more : Bytes} (h : source.At start position rest)
    (hafter : after? part rest = some more) :
    source.hasAt position part = true ∧ source.At start (position + part.length) more := by
  have hrest := after?_eq_some_iff.mp hafter
  constructor
  · rw [h.hasAt, hrest]
    exact List.isPrefixOf_iff_prefix.mpr (List.prefix_append part more)
  · exact At.append (hrest ▸ h)

theorem At.not_hasAt {part : Bytes} (h : source.At start position rest)
    (hafter : after? part rest = none) : source.hasAt position part = false := by
  rw [h.hasAt]
  cases hprefix : part.isPrefixOf rest with
  | false => rfl
  | true =>
      rw [after?, if_pos hprefix] at hafter
      cases hafter

theorem At.holds (h : source.At start position rest) (test : UInt8 → Bool) :
    source.holds test position = .ok (rest.head?.any test) := by
  rw [Source.holds]
  cases rest with
  | nil =>
      rw [if_neg h.not_lt_size]
      rfl
  | cons b rest =>
      rw [if_pos h.lt_size, h.byte]
      rfl

theorem At.holds_bind {α : Type} (h : source.At start position rest) (test : UInt8 → Bool)
    (next : Bool → Scan α) : source.holds test position >>= next = next (rest.head?.any test) := by
  rw [h.holds]
  rfl

/-- Looking for a byte is looking for the text of that byte. -/
theorem At.holds_byte {α : Type} (h : source.At start position rest) (b : UInt8)
    (next : Bool → Scan α) :
    source.holds (· == b) position >>= next = next (after? [b] rest).isSome := by
  have hfound : rest.head?.any (· == b) = (after? [b] rest).isSome := by
    cases hafter : after? [b] rest with
    | some more =>
        rw [after?_eq_some_iff.mp hafter]
        exact beq_self_eq_true b
    | none =>
        have hhead := after?_singleton_eq_none_iff.mp hafter
        cases rest with
        | nil => rfl
        | cons c rest => exact beq_eq_false_iff_ne.mpr fun heq => hhead (congrArg some heq)
  rw [h.holds_bind, hfound]

theorem At.skipWhile (h : source.At start position rest) (test : UInt8 → Bool) :
    source.skipWhile test position = .ok (position + (rest.takeWhile test).length) := by
  induction rest generalizing position with
  | nil =>
      rw [Source.skipWhile, dif_neg h.not_lt_size]
      rfl
  | cons b rest ih =>
      rw [Source.skipWhile, dif_pos h.lt_size, h.byte]
      by_cases htest : test b = true
      · have hnext := ih h.tail
        rw [Nat.add_right_comm] at hnext
        rw [List.takeWhile_cons_of_pos htest, List.length_cons, ← Nat.add_assoc, ← hnext]
        exact if_pos htest
      · rw [List.takeWhile_cons_of_neg htest]
        exact if_neg htest

theorem At.skipWhile_bind {α : Type} (h : source.At start position rest) (test : UInt8 → Bool)
    (next : Nat → Scan α) :
    source.skipWhile test position >>= next = next (position + (rest.takeWhile test).length) := by
  rw [h.skipWhile]
  rfl

theorem At.dropWhile (h : source.At start position rest) (test : UInt8 → Bool) :
    source.At start (position + (rest.takeWhile test).length) (rest.dropWhile test) := by
  refine At.append ?_
  rwa [List.takeWhile_append_dropWhile]

theorem findIdx?_eq_takeWhile (c : UInt8) (text : Bytes) :
    text.findIdx? (· == c) =
      if (text.dropWhile (· != c)).isEmpty then none
      else some (text.takeWhile (· != c)).length := by
  induction text with
  | nil => rfl
  | cons b text ih =>
      rw [List.findIdx?_cons]
      by_cases hb : b = c
      · rw [hb]
        simp
      · have hne : (b != c) = true := bne_iff_ne.mpr hb
        rw [if_neg (mt beq_iff_eq.mp hb), ih, List.dropWhile_cons, List.takeWhile_cons, if_pos hne,
          if_pos hne]
        split
        · rfl
        · rfl

theorem At.find? (h : source.At start position rest) (c : UInt8) :
    source.find? c position =
      if (rest.dropWhile (· != c)).isEmpty then none
      else some (position + (rest.takeWhile (· != c)).length) := by
  rw [Source.find?, h.drop_eq, findIdx?_eq_takeWhile]
  split
  · rfl
  · rfl

/-- Going on from where a byte is found, or from the end. -/
theorem At.find_or_end (h : source.At start position rest) (c : UInt8) :
    source.At start ((source.find? c position).getD source.size) (rest.dropWhile (· != c)) := by
  have hfound := h.dropWhile (· != c)
  rw [h.find? c]
  by_cases hempty : (rest.dropWhile (· != c)).isEmpty = true
  · rw [if_pos hempty, Option.getD_none]
    rw [List.isEmpty_iff.mp hempty] at hfound ⊢
    exact hfound.eq_size ▸ hfound
  · rw [if_neg hempty]
    exact hfound

end At

structure Reaches {α : Type} (source : Source) (start : Nat) (here : α × Nat)
    (left : α × Bytes) : Prop where
  value : here.1 = left.1
  at_next : source.At start here.2 left.2

end Source

section Agree

variable {Cause α β γ δ : Type} {source : Source} {start : Nat} {message : Cause → Bytes}

/-- Reading by position agrees with reading the bytes that are left, as far as `R` compares results. -/
def Source.Agree (source : Source) (start : Nat) (message : Cause → Bytes) (R : α → β → Prop) :
    Scan α → Except (Failure Cause) β → Prop
  | .ok here, .ok left => R here left
  | .error (.error first last text), .error (.fault fault) =>
      start ≤ first ∧ first + fault.left = source.size ∧ last = first + fault.width ∧
        text = message fault.cause
  | .error (.misuse cause), .error (.misuse other) => cause = other
  | _, _ => False

theorem Source.Agree.bind {R : α → β → Prop} {S : γ → δ → Prop} {x : Scan α}
    {y : Except (Failure Cause) β} {f : α → Scan γ} {g : β → Except (Failure Cause) δ}
    (h : source.Agree start message R x y)
    (hnext : ∀ here left, R here left → source.Agree start message S (f here) (g left)) :
    source.Agree start message S (x >>= f) (y >>= g) := by
  match x, y, h with
  | .ok here, .ok left, h => exact hnext here left h
  | .error (.error _ _ _), .error (.fault _), h => exact h
  | .error (.misuse _), .error (.misuse _), h => exact h

theorem Source.Agree.mono {R S : α → β → Prop} {x : Scan α} {y : Except (Failure Cause) β}
    (h : source.Agree start message R x y) (himp : ∀ here left, R here left → S here left) :
    source.Agree start message S x y := by
  match x, y, h with
  | .ok here, .ok left, h => exact himp here left h
  | .error (.error _ _ _), .error (.fault _), h => exact h
  | .error (.misuse _), .error (.misuse _), h => exact h

/-- What is reached in reading from a position on is not before it, wherever reading began. -/
theorem Source.Agree.widen {position : Nat} {x : Scan (α × Nat)}
    {y : Except (Failure Cause) (α × Bytes)} (hle : start ≤ position)
    (h : source.Agree position message (source.Reaches position) x y) :
    source.Agree start message
      (fun here left => source.Reaches start here left ∧ position ≤ here.2) x y := by
  match x, y, h with
  | .ok here, .ok left, h =>
      obtain ⟨hvalue, hposition, hleft⟩ := h
      exact ⟨⟨hvalue, Nat.le_trans hle hposition, hleft⟩, hposition⟩
  | .error (.error _ _ _), .error (.fault _), h =>
      obtain ⟨hposition, hrange⟩ := h
      exact ⟨Nat.le_trans hle hposition, hrange⟩
  | .error (.misuse _), .error (.misuse _), h => exact h

variable {R : α → β → Prop} {position last : Nat} {rest : Bytes}

theorem agree_fault_of_message {text : Bytes} (h : source.At start position rest) {width : Nat}
    (cause : Cause) (hlast : last = position + width) (htext : text = message cause) :
    source.Agree start message R (.error (.error position last text))
      (.error (faultAt rest width cause)) :=
  ⟨h.start_le, h.size_eq.symm, hlast, htext⟩

theorem agree_fault (h : source.At start position rest) {width : Nat} (cause : Cause)
    (hlast : last = position + width) :
    source.Agree start message R (.error (.error position last (message cause)))
      (.error (faultAt rest width cause)) :=
  agree_fault_of_message h cause hlast rfl

theorem agree_faultToEnd (h : source.At start position rest) (cause : Cause)
    (hlast : last = source.size) :
    source.Agree start message R (.error (.error position last (message cause)))
      (.error (faultToEnd rest cause)) :=
  agree_fault h cause (hlast.trans h.size_eq)

/-- Readers look at the byte at a position if there is one, and otherwise see the end. -/
theorem agree_byte_or_end {onByte : UInt8 → Scan α} {onEnd : Scan α}
    {y : Except (Failure Cause) β} (h : source.At start position rest)
    (hbyte : ∀ b more, rest = b :: more → source.At start position (b :: more) →
      source.Agree start message R (onByte b) y)
    (hend : rest = [] → source.At start position [] → source.Agree start message R onEnd y) :
    source.Agree start message R
      (if position < source.size then source.byte position >>= onByte else onEnd) y := by
  cases rest with
  | nil =>
      rw [if_neg h.not_lt_size]
      exact hend rfl h
  | cons b more =>
      rw [if_pos h.lt_size, h.byte_bind]
      exact hbyte b more rfl h

theorem add_length_eq_iff {text : Bytes} :
    position + text.length = position ↔ text.isEmpty = true := by
  rw [Nat.add_eq_left, List.length_eq_zero_iff, List.isEmpty_iff]

/-- Readers that agree both give results, or leave the same in the report. -/
theorem Source.Agree.outcomes {report : Report} {x : Scan α} {y : Except (Failure Cause) β}
    (h : report.source.Agree start message R x y) :
    (∃ here left, R here left ∧ report.conclude x = .ok (some here, report) ∧
      report.settle start message y = .ok (some left, report)) ∨
    ∃ refused : Except Misuse Report, report.conclude x = refused.map (none, ·) ∧
      report.settle start message y = refused.map (none, ·) := by
  match x, y, h with
  | .ok here, .ok left, h => exact Or.inl ⟨here, left, h, rfl, rfl⟩
  | .error (.error first last text), .error (.fault fault), h =>
      obtain ⟨hstart, hfirst, rfl, rfl⟩ := h
      have hposition : report.positionOf start fault.left = first := by
        rw [Report.positionOf]
        omega
      refine Or.inr ⟨report.error first (first + fault.width) (message fault.cause), ?_, ?_⟩
      · cases hrecord : report.error first (first + fault.width) (message fault.cause) with
        | ok recorded => simp only [Report.conclude, hrecord]; rfl
        | error misuse => simp only [Report.conclude, hrecord]; rfl
      · cases hrecord : report.error first (first + fault.width) (message fault.cause) with
        | ok recorded => simp only [Report.settle, hposition, hrecord]; rfl
        | error misuse => simp only [Report.settle, hposition, hrecord]; rfl
  | .error (.misuse cause), .error (.misuse _), h =>
      cases h
      exact Or.inr ⟨.error cause, rfl, rfl⟩

theorem Report.conclude_eq_settle {report : Report} {x : Scan α} {y : Except (Failure Cause) β}
    {f : β → α} (h : report.source.Agree start message (fun here left => here = f left) x y) :
    report.conclude x = report.settle start message (y.map f) := by
  have hmapped : report.source.Agree start message (fun here left => here = left) x (y.map f) := by
    match x, y, h with
    | .ok _, .ok _, h => exact h
    | .error (.error _ _ _), .error (.fault _), h => exact h
    | .error (.misuse _), .error (.misuse _), h => exact h
  rcases hmapped.outcomes with ⟨_, _, rfl, hhere, hleft⟩ | ⟨refused, hhere, hleft⟩
  · rw [hhere, hleft]
  · rw [hhere, hleft]

end Agree

end JsonTable
