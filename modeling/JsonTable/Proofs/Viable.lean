import JsonTable.Proofs.Faults

/-!
# Faults after viable texts

The beginning of a text is viable in a language if it can be continued to a text of the
language, which need not be the text it was taken from. A reader that looks for a text of
the language does not stop too late if what stands before its fault is viable: what follows
could then still have made it right.
-/

namespace JsonTable

/-- What can be continued to a text of the language. -/
def Viable (L : Bytes → Prop) (lead : Bytes) : Prop :=
  ∃ more, L (lead ++ more)

def Failure.AfterViable {Cause : Type} (L : Bytes → Prop) (text : Bytes) :
    Failure Cause → Prop
  | .fault ⟨size, _, _⟩ => ∃ lead left, text = lead ++ left ∧ left.length = size ∧ Viable L lead
  | .misuse _ => False

/-- A computation on a text, which fails only where what it has passed is viable. -/
def FaultsAfterViable {Cause α : Type} (L : Bytes → Prop) (text : Bytes)
    (reading : Except (Failure Cause) α) : Prop :=
  ∀ failure, reading = .error failure → failure.AfterViable L text

section Viable

variable {L L' : Bytes → Prop} {lead more : Bytes}

theorem viable_of_mem (h : L lead) : Viable L lead :=
  ⟨[], by rwa [List.append_nil]⟩

theorem Viable.of_append (h : Viable L (lead ++ more)) : Viable L lead := by
  obtain ⟨rest, h⟩ := h
  exact ⟨more ++ rest, by rwa [← List.append_assoc]⟩

theorem Viable.nil (h : Viable L lead) : Viable L [] :=
  h.of_append

theorem Viable.after (h : Viable L lead) (front : Bytes)
    (hfront : ∀ t, L t → Viable L' (front ++ t)) : Viable L' (front ++ lead) := by
  obtain ⟨rest, h⟩ := h
  have hlong := hfront _ h
  rw [← List.append_assoc] at hlong
  exact hlong.of_append

end Viable

section Readings

variable {Cause α β : Type} {L L' : Bytes → Prop} {text : Bytes}
  {reading : Except (Failure Cause) α}

theorem faultsAfterViable_ok (L : Bytes → Prop) (text : Bytes) (a : α) :
    FaultsAfterViable L text (.ok a : Except (Failure Cause) α) := by
  intro failure h
  cases h

theorem faultsAfterViable_faultAt {lead left : Bytes} {width : Nat} (cause : Cause)
    (htext : text = lead ++ left) (hlead : Viable L lead) :
    FaultsAfterViable L text (.error (faultAt left width cause) : Except (Failure Cause) α) := by
  intro failure h
  cases h
  exact ⟨lead, left, htext, rfl, hlead⟩

/-- At the very beginning there is a fault only if the language has no texts at all. -/
theorem faultsAfterViable_start {width : Nat} (cause : Cause) (h : Viable L []) :
    FaultsAfterViable L text (.error (faultAt text width cause) : Except (Failure Cause) α) :=
  faultsAfterViable_faultAt cause rfl h

theorem FaultsAfterViable.bind {next : α → Except (Failure Cause) β}
    (h : FaultsAfterViable L text reading)
    (hnext : ∀ a, reading = .ok a → FaultsAfterViable L text (next a)) :
    FaultsAfterViable L text (reading >>= next) :=
  forall_error_bind h hnext

/-- A part of a text is read where texts of the part's language can be continued. -/
theorem FaultsAfterViable.after (h : FaultsAfterViable L text reading) (front : Bytes)
    (hfront : ∀ t, L t → Viable L' (front ++ t)) :
    FaultsAfterViable L' (front ++ text) reading := by
  intro failure hfailure
  have hpart := h failure hfailure
  cases failure with
  | misuse cause => exact hpart
  | fault fault =>
      obtain ⟨lead, left, rfl, hleft, hlead⟩ := hpart
      exact ⟨front ++ lead, left, (List.append_assoc _ _ _).symm, hleft, hlead.after front hfront⟩

end Readings

/-- The text before the recorded error is viable, from where reading began. -/
theorem Report.settle_after_viable {Cause α : Type} {L : Bytes → Prop} {mark body : Bytes}
    (report : Report) {reading : Except (Failure Cause) α}
    (hbytes : report.source.bytes = mark ++ body) (h : FaultsAfterViable L body reading)
    (message : Cause → Bytes) :
    (∃ a, report.settle mark.length message reading = .ok (some a, report)) ∨
      ∃ d : Diagnostic, report.settle mark.length message reading = .ok (none, report.add d) ∧
        d.severity = .error ∧ d.start ≤ report.source.size ∧
        ∃ lead, report.source.bytes.take d.start = mark ++ lead ∧ Viable L lead := by
  cases reading with
  | ok a => exact Or.inl ⟨a, rfl⟩
  | error failure =>
      have hafter := h failure rfl
      cases failure with
      | misuse cause => exact hafter.elim
      | fault fault =>
          obtain ⟨lead, left, rfl, hleft, hlead⟩ := hafter
          have hsize : report.source.size = mark.length + lead.length + left.length := by
            rw [Source.size_eq, hbytes, List.length_append, List.length_append, Nat.add_assoc]
          have hposition : report.positionOf mark.length fault.left =
              mark.length + lead.length := by
            unfold positionOf
            omega
          obtain ⟨d, hd, hseverity, hstart, _, _⟩ :=
            exists_record_eq (show mark.length + lead.length ≤ report.source.size by omega) .error
              (mark.length + lead.length + fault.width) (message fault.cause)
          refine Or.inr ⟨d, ?_, hseverity, by omega, lead, ?_, hlead⟩
          · simp only [settle, hposition, Report.error, hd, bind, Except.bind]
            rfl
          · rw [hstart, hbytes, ← List.append_assoc, ← List.length_append, List.take_left]

end JsonTable
