import JsonTable.Proofs.Format.Refusals
import JsonTable.Proofs.Format.Runs

/-!
# Closing what is left open

A format that ends before all brackets are closed is refused, but what was read up to its
end is not lost: after a newline, which ends a comment, closing brackets can be added, and
as many as are open make a format. Its program has the rules and line items that the draft
had collected. With any other number of brackets there is no program.
-/

namespace JsonTable.Format

open Bytes

/-- A format with closing brackets on a line of their own after it. -/
def withClosings (format : Bytes) (count : Nat) : Bytes :=
  format ++ Byte.lineFeed :: List.replicate count Byte.closeBracket

/--
A format that is refused for the brackets it leaves open has a draft at its end, with at
least one bracket open: a level, or a line item and the levels around it. After a newline
as many closing brackets as are open give a program, and no other number does. The program
has the rules that the draft has, and its line items, those left open before those closed.
-/
theorem closing_brackets_repair_format {format : Bytes} {options : Options} {error : Diagnostic}
    {cause : Cause} (h : Program.ofFormat format options = .error (.rejected error))
    (hcause : cause.LeftOpen) (hmessage : error.message = cause.message) :
    ∃ draft, draftFrom format.length (format.length + 1) {} format = .ok draft ∧
      1 ≤ draft.openCount ∧
      draft.openCount =
        draft.levels.length + (draft.items.map fun item => 1 + item.outer.length).sum ∧
      ∀ count program,
        Program.ofFormat (withClosings format count) options = .ok program ↔
          count = draft.openCount ∧
            program = ⟨withClosings format count, options, draft.root,
              draft.items.reverse.map OpenItem.close ++ draft.closed, draft.tail⟩ := by
  obtain ⟨fault, hfault, hsame⟩ := exists_fault_of_rejected h
  have hleft : fault.cause.LeftOpen := by
    rw [Cause.leftOpen_iff_take] at hcause ⊢
    rwa [← hsame, hmessage]
  obtain ⟨draft, hdraft, hcount⟩ := draftFrom_of_leftOpen hfault hleft
  refine ⟨draft, hdraft, Nat.one_le_iff_ne_zero.mpr hcount, draft.openCount_eq_sum,
    fun count program => ?_⟩
  obtain ⟨operations, tokens, hspelled, hspaced, hrun⟩ := exists_run_of_draftFrom hdraft
  have hclosings (next : Draft) := @Draft.run_closings_iff draft.unplaced next count
  rw [draft.openCount_unplaced, draft.closeAll_unplaced] at hclosings
  rw [withClosings, ofFormat_iff_run (hspelled.append (spelled_closings count))
    (hspaced.append (spaced_closings count)), Draft.run_append, hrun, Option.bind_some]
  constructor
  · intro hprogram
    obtain ⟨next, hnext, hclosed, rfl⟩ := hprogram
    obtain ⟨hopen, rfl⟩ := (hclosings next).mp ⟨hnext, hclosed⟩
    exact ⟨hopen, rfl⟩
  · intro hopen
    obtain ⟨hopen, rfl⟩ := hopen
    obtain ⟨hnext, hclosed⟩ := (hclosings draft.closeAll).mpr ⟨hopen, rfl⟩
    exact ⟨draft.closeAll, hnext, hclosed, rfl⟩

/-- Two levels and a line item are open, and so is a comment that ends in a bracket. -/
theorem closing_brackets_repair_format_after_comment :
    let format := ascii "\"r\" .\"a\"[ +\"i\"[ .\"b\"[ \"x\" # not closed ]"
    (∃ error, Program.ofFormat format {} = .error (.rejected error)) ∧
      ∀ count program,
        Program.ofFormat (withClosings format count) {} = .ok program ↔
          count = 3 ∧
            program = ⟨withClosings format count, {}, [⟨[], ascii "r"⟩],
              [⟨[.member (ascii "a")], ascii "i", [⟨[.member (ascii "b")], ascii "x"⟩], []⟩],
              []⟩ := by
  intro format
  have hfault : draftOf format =
      .error (.fault ⟨24, 24, .openLevels 1 (ascii "b") true⟩) := rfl
  obtain ⟨error, hrejected, hmessage⟩ := ofFormat_of_fault hfault {}
  obtain ⟨draft, hdraft, _, _, hclosings⟩ :=
    closing_brackets_repair_format hrejected .levels hmessage
  have hend : draftFrom format.length (format.length + 1) {} format = .ok
      { levels := [⟨.member (ascii "b"), 16⟩],
        items := [⟨ascii "i", [⟨.member (ascii "a"), 4⟩],
          [⟨[.member (ascii "b")], ascii "x"⟩], [], 10⟩],
        root := [⟨[], ascii "r"⟩] } := rfl
  cases hdraft.symm.trans hend
  exact ⟨⟨error, hrejected⟩, hclosings⟩

end JsonTable.Format
