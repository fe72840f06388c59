import JsonTable.Proofs.Format.Denotation
import Mathlib.Algebra.Ring.Nat

/-!
# Runs

What operations make of a draft does not depend on where they stand in a format, except for
the positions at which the draft says that brackets were opened. Without these a draft is
the outcome of a run of operations, and a text compiles if the operations that its tokens
spell leave nothing open. Closing brackets at the end of a run close one bracket each.
-/

namespace JsonTable.Format

/-- A level, as if it was opened at the beginning of a format. -/
def Level.unplaced (level : Level) : Level :=
  { level with position := 0 }

def OpenItem.unplaced (item : OpenItem) : OpenItem :=
  { item with outer := item.outer.map Level.unplaced, position := 0 }

theorem pathOf_unplaced (levels : List Level) :
    pathOf (levels.map Level.unplaced) = pathOf levels := by
  rw [pathOf, List.map_map]
  rfl

theorem OpenItem.close_unplaced (item : OpenItem) : item.unplaced.close = item.close := by
  simp [close, unplaced, pathOf_unplaced]

namespace Draft

def unplaced (draft : Draft) : Draft :=
  { draft with levels := draft.levels.map Level.unplaced,
               items := draft.items.map OpenItem.unplaced }

def run (draft : Draft) (operations : List Operation) : Option Draft :=
  operations.foldlM (fun draft operation => (draft.apply 0 0 operation).toOption) draft

theorem apply_unplaced (draft : Draft) (position left : Nat) (operation : Operation) :
    (draft.unplaced.apply 0 0 operation).toOption =
      (draft.apply position left operation).toOption.map unplaced := by
  obtain ⟨levels, items, closed, root, tail⟩ := draft
  cases operation with
  | descend step => rfl
  | openItem key =>
      cases closed with
      | nil => rfl
      | cons item closed => rfl
  | print key =>
      rw [apply, unplaced, pathOf_unplaced]
      cases items <;> cases closed <;> rfl
  | close =>
      cases levels with
      | cons level levels => rfl
      | nil =>
          cases items with
          | nil => rfl
          | cons item items =>
              simp [apply, close?, unplaced, Except.toOption, item.close_unplaced,
                show item.unplaced.outer = item.outer.map Level.unplaced from rfl]

theorem perform_unplaced (draft : Draft) (size : Nat) (script : Script) :
    (draft.perform size script).toOption.map unplaced =
      draft.unplaced.run (script.map Prod.snd) := by
  induction script generalizing draft with
  | nil => rfl
  | cons entry script ih =>
      obtain ⟨left, operation⟩ := entry
      have happly := draft.apply_unplaced (size - left) left operation
      simp only [perform, run, List.map_cons, List.foldlM_cons, happly]
      cases draft.apply (size - left) left operation with
      | error failure => rfl
      | ok next => exact ih next

theorem run_append (draft : Draft) (operations more : List Operation) :
    draft.run (operations ++ more) = (draft.run operations).bind fun next => next.run more :=
  List.foldlM_append

/-! ## Closing everything -/

variable {draft draft' : Draft}

def closeAll (draft : Draft) : Draft :=
  { draft with levels := [], items := [],
               closed := draft.items.reverse.map OpenItem.close ++ draft.closed }

theorem closeAll_of_openCount_eq_zero (h : draft.openCount = 0) : draft.closeAll = draft := by
  obtain ⟨levels, items, closed, root, tail⟩ := draft
  obtain ⟨hlevels, hitems⟩ := openCount_eq_zero_iff.mp h
  cases hlevels
  cases hitems
  rfl

theorem closeAll_of_close (h : draft.close? = some draft') : draft'.closeAll = draft.closeAll := by
  obtain ⟨levels, items, closed, root, tail⟩ := draft
  cases levels with
  | cons level levels =>
      cases h
      rfl
  | nil =>
      cases items with
      | nil => cases h
      | cons item items =>
          cases h
          simp [closeAll]

theorem close?_eq_none_iff : draft.close? = none ↔ draft.openCount = 0 := by
  rw [openCount_eq_zero_iff, close?]
  cases draft.levels with
  | cons level levels => simp
  | nil =>
      cases draft.items with
      | nil => simp
      | cons item items => simp

/-- By induction on the brackets: each closes one, so that as many are needed as are open. -/
theorem run_closings_iff (count : Nat) :
    draft.run (List.replicate count .close) = some draft' ∧ draft'.openCount = 0 ↔
      count = draft.openCount ∧ draft' = draft.closeAll := by
  induction count generalizing draft with
  | zero =>
      constructor
      · intro h
        obtain ⟨hrun, hcount⟩ := h
        cases hrun
        exact ⟨hcount.symm, (closeAll_of_openCount_eq_zero hcount).symm⟩
      · intro h
        obtain ⟨hcount, rfl⟩ := h
        exact ⟨congrArg some (closeAll_of_openCount_eq_zero hcount.symm).symm, rfl⟩
  | succ count ih =>
      cases hclose : draft.close? with
      | none =>
          have hcount := close?_eq_none_iff.mp hclose
          have hrun : draft.run (List.replicate (count + 1) .close) = none := by
            simp [run, List.replicate_succ, apply, hclose, Except.toOption]
          rw [hrun, hcount]
          simp
      | some next =>
          have hrun : draft.run (List.replicate (count + 1) .close) =
              next.run (List.replicate count .close) := by
            simp [run, List.replicate_succ, apply, hclose, Except.toOption]
          rw [hrun, ih, openCount_close hclose, closeAll_of_close hclose, Nat.add_right_cancel_iff]

theorem openCount_unplaced (draft : Draft) : draft.unplaced.openCount = draft.openCount := by
  simp [openCount, unplaced, OpenItem.unplaced, List.length_flatMap, Function.comp_def]

theorem closeAll_unplaced (draft : Draft) : draft.unplaced.closeAll = draft.closeAll := by
  simp [closeAll, unplaced, ← List.map_reverse, Function.comp_def, OpenItem.close_unplaced]

theorem openCount_eq_sum (draft : Draft) :
    draft.openCount =
      draft.levels.length + (draft.items.map fun item => 1 + item.outer.length).sum := by
  obtain ⟨levels, items, _, _, _⟩ := draft
  induction items with
  | nil => simp [openCount]
  | cons item items ih =>
      simp only [openCount, List.length_append, List.length_cons, List.flatMap_cons,
        List.map_cons, List.sum_cons] at ih ⊢
      omega

end Draft

theorem ofFormat_iff_run {text : Bytes} {operations : List Operation} {tokens : List Token}
    {options : Options} {program : Program} (hspelled : Spelled operations tokens)
    (hspaced : Spaced tokens text) :
    Program.ofFormat text options = .ok program ↔
      ∃ draft, Draft.run {} operations = some draft ∧ draft.openCount = 0 ∧
        program = draft.toProgram text options := by
  obtain ⟨script, hscript, rfl⟩ := readScript_complete hspelled hspaced (Nat.lt_succ_self _)
  have hrun := Draft.perform_unplaced {} text.length script
  change _ = Draft.run {} _ at hrun
  simp only [ofFormat_eq_ok_iff_draftOf, draftOf_eq_ok_iff, draftFrom_eq_ok_iff, ← hrun]
  constructor
  · intro h
    obtain ⟨draft, ⟨⟨other, hother, hperform⟩, hcount⟩, rfl⟩ := h
    cases hscript.symm.trans hother
    rw [hperform]
    exact ⟨draft.unplaced, rfl, draft.openCount_unplaced.trans hcount, rfl⟩
  · intro h
    obtain ⟨draft, hdraft, hcount, rfl⟩ := h
    cases hperform : Draft.perform text.length {} script with
    | error failure =>
        rw [hperform] at hdraft
        cases hdraft
    | ok done =>
        rw [hperform] at hdraft
        cases hdraft
        exact ⟨done, ⟨⟨script, hscript, hperform⟩, done.openCount_unplaced ▸ hcount⟩, rfl⟩

theorem spelled_closings (count : Nat) :
    Spelled (List.replicate count .close) (List.replicate count .closeBracket) := by
  induction count with
  | zero => exact .nil
  | succ count ih => exact .cons .close ih

theorem spaced_closings (count : Nat) :
    Spaced (List.replicate count .closeBracket) (List.replicate count Byte.closeBracket) := by
  induction count with
  | zero => exact .nil (.gap .nil)
  | succ count ih => exact .cons .nil ih

/-- What was read up to the end of a text is a run of what its tokens spell. -/
theorem exists_run_of_draftFrom {text : Bytes} {draft : Draft}
    (h : draftFrom text.length (text.length + 1) {} text = .ok draft) :
    ∃ operations tokens, Spelled operations tokens ∧ Spaced tokens text ∧
      Draft.run {} operations = some draft.unplaced := by
  obtain ⟨script, hscript, hperform⟩ := draftFrom_eq_ok_iff.mp h
  obtain ⟨tokens, hspelled, hspaced⟩ := readScript_sound hscript (Nat.lt_succ_self _)
  have hrun := Draft.perform_unplaced {} text.length script
  rw [hperform] at hrun
  exact ⟨_, tokens, hspelled, hspaced, hrun.symm⟩

end JsonTable.Format
