import JsonTable.Fault

/-!
# Outcomes in reports

A reader either gives a result and says nothing, or has one fault recorded. The
place of a diagnostic is always found if the diagnostic begins inside of the
text, so that recording it cannot fail.
-/

namespace JsonTable

theorem except_bind_eq_ok {ε α β : Type} {x : Except ε α} {f : α → Except ε β} {b : β} :
    (x >>= f) = .ok b ↔ ∃ a, x = .ok a ∧ f a = .ok b := by
  cases x with
  | error e => simp [bind, Except.bind]
  | ok a => simp [bind, Except.bind]

theorem except_bind_eq_error {ε α β : Type} {x : Except ε α} {f : α → Except ε β} {e : ε} :
    (x >>= f) = .error e ↔ x = .error e ∨ ∃ a, x = .ok a ∧ f a = .error e := by
  cases x with
  | error e => simp [bind, Except.bind]
  | ok a => simp [bind, Except.bind]

/-- All failures of a composed computation are such as those of its parts are. -/
theorem forall_error_bind {ε α β : Type} {P : ε → Prop} {x : Except ε α} {f : α → Except ε β}
    (h : ∀ e, x = .error e → P e) (hnext : ∀ a, x = .ok a → ∀ e, f a = .error e → P e) :
    ∀ e, (x >>= f) = .error e → P e := by
  intro e he
  cases except_bind_eq_error.mp he with
  | inl hfirst => exact h e hfirst
  | inr hsecond =>
      obtain ⟨a, ha, hsecond⟩ := hsecond
      exact hnext a ha e hsecond

theorem except_map_eq_ok {ε α β : Type} {x : Except ε α} {f : α → β} {b : β} :
    x.map f = .ok b ↔ ∃ a, x = .ok a ∧ f a = b := by
  cases x <;> simp [Except.map]

theorem except_map_eq_error {ε α β : Type} {x : Except ε α} {f : α → β} {e : ε} :
    x.map f = .error e ↔ x = .error e := by
  cases x <;> simp [Except.map]

theorem Source.exists_place {source : Source} {position : Nat} (h : position ≤ source.size) :
    ∃ place, source.place position = .ok place := by
  simp [Source.place, h]

theorem Diagnostic.exists_make {source : Source} {start : Nat} (h : start ≤ source.size)
    (severity : Severity) (stop : Nat) (message : Bytes) :
    ∃ d, make source severity start stop message = .ok d := by
  obtain ⟨first, hfirst⟩ := Source.exists_place h
  obtain ⟨last, hlast⟩ :=
    Source.exists_place (Nat.min_le_right (max stop (start + 1) - 1) source.size)
  exact ⟨⟨severity, start, max stop (start + 1), first, last, message⟩, by
    simp [make, hfirst, hlast, bind, Except.bind, pure, Except.pure]⟩

namespace Report

variable {report report' : Report}

theorem exists_record {start : Nat} (h : start ≤ report.source.size) (severity : Severity)
    (stop : Nat) (message : Bytes) :
    ∃ d, report.record severity start stop message = .ok (report.add d) := by
  obtain ⟨d, hd⟩ := Diagnostic.exists_make h severity stop message
  exact ⟨d, by simp [record, hd, Except.map]⟩

theorem settle_eq_some_iff {Cause α : Type} {start : Nat} {message : Cause → Bytes}
    {reading : Except (Failure Cause) α} {a : α} :
    report.settle start message reading = .ok (some a, report') ↔
      reading = .ok a ∧ report' = report := by
  cases reading with
  | ok result => simp [settle, eq_comm]
  | error failure =>
      cases failure with
      | misuse cause => simp [settle]
      | fault fault => simp [settle, except_bind_eq_ok, pure, Except.pure]

end Report

end JsonTable
