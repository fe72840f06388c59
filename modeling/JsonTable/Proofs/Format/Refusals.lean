import JsonTable.Proofs.Format.Faults

/-!
# Refusals for open brackets

A format is refused with the message of its fault. No reader, and no operation, complains
of brackets that are left open: this is only said at the end of a format, after everything
up to there was read. The message tells such a fault from all others.
-/

namespace JsonTable.Format

open Bytes

inductive Cause.LeftOpen : Cause → Prop where
  | levels {count : Nat} {key : Bytes} {withinLineItem : Bool} :
      LeftOpen (.openLevels count key withinLineItem)
  | lineItems {keys : List Bytes} : LeftOpen (.openLineItems keys)

/-- A message tells this from its second letter on. -/
theorem Cause.leftOpen_iff_take (cause : Cause) :
    cause.LeftOpen ↔ cause.message.take 2 = ascii "Fi" := by
  have hother (start : Bytes) (hstart : start ≠ ascii "Fi") (hnot : ¬ cause.LeftOpen)
      (hmessage : cause.message.take 2 = start) :
      cause.LeftOpen ↔ cause.message.take 2 = ascii "Fi" :=
    iff_of_false hnot (hmessage ▸ hstart)
  cases cause with
  | openLevels count key withinLineItem => exact iff_of_true .levels rfl
  | openLineItems keys => exact iff_of_true .lineItems rfl
  | endBeforeKey role => exact hother (ascii "Mi") (by decide) nofun rfl
  | expectedKey role text => exact hother (ascii "Mi") (by decide) nofun rfl
  | unterminatedKey text => exact hother (ascii "Ca") (by decide) nofun rfl
  | emptyKey => exact hother (ascii "Ke") (by decide) nofun rfl
  | endBeforeOpen opening key => exact hother (ascii "Un") (by decide) nofun rfl
  | expectedOpen opening key found => exact hother (ascii "Ex") (by decide) nofun rfl
  | expectedEquals key => exact hother (ascii "Ex") (by decide) nofun rfl
  | secondLineItem key => exact hother (ascii "Tr") (by decide) nofun rfl
  | nothingToClose => exact hother (ascii "Fo") (by decide) nofun rfl
  | unknownByte byte text => exact hother (ascii "Un") (by decide) nofun rfl

def FailsLeftOpen : Failure Cause → Prop
  | .fault fault => fault.cause.LeftOpen
  | .misuse _ => False

def NeverLeftOpen {α : Type} (reading : Reading α) : Prop :=
  ∀ failure, reading = .error failure → ¬ FailsLeftOpen failure

section Readings

variable {α β : Type} {reading : Reading α}

theorem neverLeftOpen_ok (a : α) : NeverLeftOpen (.ok a : Reading α) := by
  intro failure h
  cases h

theorem neverLeftOpen_error {failure : Failure Cause} (h : ¬ FailsLeftOpen failure) :
    NeverLeftOpen (.error failure : Reading α) := by
  intro other hother
  cases hother
  exact h

theorem NeverLeftOpen.bind {next : α → Reading β} (h : NeverLeftOpen reading)
    (hnext : ∀ a, NeverLeftOpen (next a)) : NeverLeftOpen (reading >>= next) :=
  forall_error_bind h fun a _ => hnext a

end Readings

theorem neverLeftOpen_readKey (role : KeyRole) (text : Bytes) :
    NeverLeftOpen (readKey role text) := by
  unfold readKey
  split
  · exact neverLeftOpen_error nofun
  split
  · exact neverLeftOpen_error nofun
  split
  · exact neverLeftOpen_error nofun
  dsimp only
  split
  · exact neverLeftOpen_error nofun
  · exact neverLeftOpen_ok _

theorem neverLeftOpen_readOpen (opening : Opening) (key text : Bytes) :
    NeverLeftOpen (readOpen opening key text) := by
  unfold readOpen
  split
  · exact neverLeftOpen_error nofun
  split
  · exact neverLeftOpen_ok _
  · exact neverLeftOpen_error nofun

theorem neverLeftOpen_readMemberStep (text : Bytes) : NeverLeftOpen (readMemberStep text) := by
  refine (neverLeftOpen_readKey .memberKey text).bind fun _ => ?_
  exact (neverLeftOpen_readOpen .member _ _).bind fun _ => neverLeftOpen_ok _

theorem neverLeftOpen_readElementStep (text : Bytes) :
    NeverLeftOpen (readElementStep text) := by
  refine (neverLeftOpen_readKey .arrayKey text).bind fun _ => ?_
  refine (neverLeftOpen_readOpen .array _ _).bind fun _ => ?_
  refine (neverLeftOpen_readKey .matchKey _).bind fun _ => ?_
  dsimp only
  split
  · exact neverLeftOpen_error nofun
  · exact (neverLeftOpen_readKey .matchValue _).bind fun _ => neverLeftOpen_ok _

theorem neverLeftOpen_readLineItem (anyClosed : Bool) (text : Bytes) :
    NeverLeftOpen (readLineItem anyClosed text) := by
  refine (neverLeftOpen_readKey .lineItemKey text.tail).bind fun _ => ?_
  cases anyClosed with
  | true => exact neverLeftOpen_error nofun
  | false => exact (neverLeftOpen_readOpen .lineItem _ _).bind fun _ => neverLeftOpen_ok _

theorem neverLeftOpen_readOperation (anyClosed : Bool) (first : UInt8) (rest : Bytes) :
    NeverLeftOpen (readOperation anyClosed first rest) := by
  unfold readOperation
  split
  · exact neverLeftOpen_readMemberStep rest
  split
  · exact neverLeftOpen_readElementStep rest
  split
  · exact neverLeftOpen_readLineItem anyClosed (first :: rest)
  split
  · exact neverLeftOpen_ok _
  split
  · exact (neverLeftOpen_readKey .printedKey (first :: rest)).bind fun _ => neverLeftOpen_ok _
  · exact neverLeftOpen_error nofun

theorem neverLeftOpen_apply (draft : Draft) (position left : Nat) (operation : Operation) :
    NeverLeftOpen (draft.apply position left operation) := by
  cases operation with
  | descend step => exact neverLeftOpen_ok _
  | print key => exact neverLeftOpen_ok _
  | openItem key =>
      rw [Draft.apply]
      cases draft.anyClosed with
      | true => exact neverLeftOpen_error nofun
      | false => exact neverLeftOpen_ok _
  | close =>
      rw [Draft.apply]
      cases draft.close? with
      | some next => exact neverLeftOpen_ok _
      | none => exact neverLeftOpen_error nofun

theorem neverLeftOpen_draftFrom (size rounds : Nat) (draft : Draft) (text : Bytes) :
    NeverLeftOpen (draftFrom size rounds draft text) := by
  induction rounds generalizing draft text with
  | zero => exact neverLeftOpen_ok _
  | succ rounds ih =>
      unfold draftFrom
      split
      · exact neverLeftOpen_ok _
      · refine (neverLeftOpen_readOperation _ _ _).bind fun _ => ?_
        exact (neverLeftOpen_apply _ _ _ _).bind fun _ => ih _ _

/-- Complaints of open brackets come at the end only, and then there are some. -/
theorem draftFrom_of_leftOpen {text : Bytes} {fault : Fault Cause}
    (h : draftOf text = .error (.fault fault)) (hcause : fault.cause.LeftOpen) :
    ∃ draft, draftFrom text.length (text.length + 1) {} text = .ok draft ∧
      draft.openCount ≠ 0 := by
  cases hdraft : draftFrom text.length (text.length + 1) {} text with
  | error failure =>
      rw [draftOf, hdraft] at h
      cases h
      exact absurd hcause (neverLeftOpen_draftFrom _ _ _ _ _ hdraft)
  | ok draft =>
      refine ⟨draft, rfl, fun hcount => ?_⟩
      have hok := draftOf_eq_ok_iff.mpr ⟨hdraft, hcount⟩
      cases h.symm.trans hok

/-- A fault of the format is what the caller without a report is told of. -/
theorem ofFormat_of_fault {format : Bytes} {fault : Fault Cause}
    (h : draftOf format = .error (.fault fault)) (options : Options) :
    ∃ error : Diagnostic, Program.ofFormat format options = .error (.rejected error) ∧
      error.message = fault.cause.message := by
  let report := Report.ofBytes format
  have hposition : report.positionOf 0 fault.left ≤ report.source.size := by
    unfold Report.positionOf
    omega
  obtain ⟨error, herror, hseverity, _, _, hmessage⟩ :=
    Report.exists_record_eq hposition .error (report.positionOf 0 fault.left + fault.width)
      fault.cause.message
  refine ⟨error, ofFormat_of_refused ?_ hseverity, hmessage⟩
  have hbytes : (Report.ofBytes format).source.bytes = format := Source.bytes_ofBytes format
  simp only [Program.compile_eq, hbytes, h, Report.settle, Report.error, bind, Except.bind]
  rw [herror]
  rfl

theorem exists_fault_of_rejected {format : Bytes} {options : Options} {error : Diagnostic}
    (h : Program.ofFormat format options = .error (.rejected error)) :
    ∃ fault, draftOf format = .error (.fault fault) ∧ error.message = fault.cause.message := by
  cases hdraft : draftOf format with
  | ok draft =>
      have hok : Program.ofFormat format options = .ok (draft.toProgram format options) :=
        ofFormat_eq_ok_iff_draftOf.mpr ⟨draft, hdraft, rfl⟩
      cases h.symm.trans hok
  | error failure =>
      cases failure with
      | misuse cause => exact (draftOf_faults format _ hdraft).elim
      | fault fault =>
          obtain ⟨other, hother, hmessage⟩ := ofFormat_of_fault hdraft options
          cases h.symm.trans hother
          exact ⟨fault, rfl, hmessage⟩

end JsonTable.Format
