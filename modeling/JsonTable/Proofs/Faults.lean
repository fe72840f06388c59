import JsonTable.Proofs.Reports

/-!
# Faults within a text

What goes wrong while a text is read is to be a fault of that text: it begins
among the bytes that were left, and it covers at most one byte beyond their end,
which is how an unexpected end is pointed at. `FaultsWithin` is closed under
composition, so that each reader only has to say where its own faults are.
Settling turns such a fault into one error of the report, and never into a misuse.
-/

namespace JsonTable

/-- A fault that begins with at most `size` bytes left and ends at most one byte past the end. -/
def Failure.Within {Cause : Type} (size : Nat) : Failure Cause → Prop
  | .fault ⟨left, width, _⟩ => left ≤ size ∧ width ≤ left + 1
  | .misuse _ => False

/-- A computation on the last `size` bytes of a text, which fails for what is in them only. -/
def FaultsWithin {Cause α : Type} (size : Nat) (reading : Except (Failure Cause) α) : Prop :=
  ∀ failure, reading = .error failure → failure.Within size

section Readings

variable {Cause α β : Type} {size : Nat} {reading : Except (Failure Cause) α}

theorem faultsWithin_ok (size : Nat) (a : α) :
    FaultsWithin size (.ok a : Except (Failure Cause) α) := by
  intro failure h
  cases h

theorem faultsWithin_error {failure : Failure Cause} (h : failure.Within size) :
    FaultsWithin size (.error failure : Except (Failure Cause) α) := by
  intro other hother
  cases hother
  exact h

theorem Failure.Within.mono {failure : Failure Cause} {bound : Nat} (h : failure.Within size)
    (hle : size ≤ bound) : failure.Within bound := by
  cases failure with
  | fault fault => exact ⟨Nat.le_trans h.1 hle, h.2⟩
  | misuse cause => exact h

theorem FaultsWithin.mono {bound : Nat} (h : FaultsWithin size reading) (hle : size ≤ bound) :
    FaultsWithin bound reading :=
  fun failure hfailure => (h failure hfailure).mono hle

theorem FaultsWithin.bind {next : α → Except (Failure Cause) β} (h : FaultsWithin size reading)
    (hnext : ∀ a, reading = .ok a → FaultsWithin size (next a)) :
    FaultsWithin size (reading >>= next) :=
  forall_error_bind h hnext

theorem FaultsWithin.map (h : FaultsWithin size reading) (f : α → β) :
    FaultsWithin size (reading.map f) := by
  have hmap : reading.map f = reading >>= fun a => .ok (f a) := by
    cases reading <;> rfl
  rw [hmap]
  exact h.bind fun _ _ => faultsWithin_ok _ _

theorem faultsWithin_faultAt {rest : Bytes} {width : Nat} (cause : Cause)
    (hrest : rest.length ≤ size) (hwidth : width ≤ rest.length + 1) :
    FaultsWithin size (.error (faultAt rest width cause) : Except (Failure Cause) α) :=
  faultsWithin_error ⟨hrest, hwidth⟩

theorem faultsWithin_faultToEnd {rest : Bytes} (cause : Cause) (hrest : rest.length ≤ size) :
    FaultsWithin size (.error (faultToEnd rest cause) : Except (Failure Cause) α) :=
  faultsWithin_faultAt cause hrest (Nat.le_succ _)

end Readings

/-! ## Errors in a report -/

namespace Diagnostic

/-- An error about a range of a text of `size` bytes, at whose end it may point one byte beyond. -/
structure ErrorWithin (size : Nat) (d : Diagnostic) : Prop where
  severity_eq : d.severity = .error
  start_le : d.start ≤ size
  start_lt_stop : d.start < d.stop
  stop_le : d.stop ≤ size + 1

/-- What a diagnostic is about is what it was made with, but that no range is empty. -/
theorem make_eq_ok {source : Source} {severity : Severity} {start stop : Nat} {message : Bytes}
    {d : Diagnostic} (h : make source severity start stop message = .ok d) :
    d.severity = severity ∧ d.start = start ∧ d.stop = max stop (start + 1) ∧
      d.message = message := by
  unfold make at h
  obtain ⟨first, _, h⟩ := except_bind_eq_ok.mp h
  obtain ⟨last, _, h⟩ := except_bind_eq_ok.mp h
  cases h
  exact ⟨rfl, rfl, rfl, rfl⟩

end Diagnostic

namespace Report

variable {report : Report} {start : Nat}

theorem exists_record_eq (h : start ≤ report.source.size) (severity : Severity) (stop : Nat)
    (message : Bytes) :
    ∃ d : Diagnostic, report.record severity start stop message = .ok (report.add d) ∧
      d.severity = severity ∧ d.start = start ∧ d.stop = max stop (start + 1) ∧
      d.message = message := by
  obtain ⟨d, hd⟩ := Diagnostic.exists_make h severity stop message
  refine ⟨d, ?_, Diagnostic.make_eq_ok hd⟩
  simp [record, hd, Except.map]

theorem record_past_end (h : report.source.size < start) (severity : Severity) (stop : Nat)
    (message : Bytes) :
    report.record severity start stop message = .error (.placeOutOfRange start) := by
  have hplace : report.source.place start = .error (.placeOutOfRange start) := by
    rw [Source.place, if_neg (Nat.not_le_of_lt h)]
  rw [record, Diagnostic.make]
  simp only [hplace]
  rfl

theorem firstError?_add {text : Bytes} {error : Diagnostic} (h : error.severity = .error) :
    ((ofBytes text).add error).firstError? = some error := by
  simp [firstError?, add, ofBytes, h]

/-- What a reader fails with becomes one error in the report. -/
theorem settle_outcome {Cause α : Type} {reading : Except (Failure Cause) α}
    (hstart : start ≤ report.source.size)
    (h : FaultsWithin (report.source.size - start) reading) (message : Cause → Bytes) :
    (∃ a, reading = .ok a ∧ report.settle start message reading = .ok (some a, report)) ∨
      ((∃ failure, reading = .error failure) ∧
        ∃ d : Diagnostic, report.settle start message reading = .ok (none, report.add d) ∧
          d.ErrorWithin report.source.size) := by
  cases hreading : reading with
  | ok a => exact Or.inl ⟨a, rfl, rfl⟩
  | error failure =>
      have hwithin := h failure hreading
      cases failure with
      | misuse cause => exact hwithin.elim
      | fault fault =>
          obtain ⟨hleft, hwidth⟩ := hwithin
          -- As many bytes are left as the fault says, now that the position is in the text.
          have hposition : report.positionOf start fault.left + fault.left =
              report.source.size := by
            unfold positionOf
            omega
          generalize hat : report.positionOf start fault.left = position at hposition
          obtain ⟨d, hd, hseverity, hfirst, hlast, _⟩ :=
            exists_record_eq (show position ≤ report.source.size by omega) .error
              (position + fault.width) (message fault.cause)
          refine Or.inr ⟨⟨_, rfl⟩, d, ?_, hseverity, ?_, ?_, ?_⟩
          · simp only [settle, hat, Report.error, hd, bind, Except.bind]
            rfl
          · omega
          · omega
          · omega

end Report

end JsonTable
