import JsonTable.Proofs.Format.Compiler
import JsonTable.Proofs.Format.Drafts

/-!
# What compiling accepts

A format compiles exactly if it shows a forest whose line items are on one path,
and then to the program that the forest denotes. The reader's side is in
`Reading`, the stacks are in `Drafts`; here both are put together.
-/

namespace JsonTable.Format

/-- The program that a format denotes: that of the forest which it shows. -/
def Denotes (format : Bytes) (options : Options) (program : Program) : Prop :=
  ∃ nodes, Renders nodes format ∧ OnOnePath nodes ∧ program = programOf nodes format options

namespace Draft

theorem checkClosed_eq_ok_iff {size : Nat} {draft : Draft} :
    draft.checkClosed size = .ok () ↔ draft.openCount = 0 := by
  rw [openCount_eq_zero_iff, checkClosed]
  cases draft.levels with
  | nil =>
      cases draft.items with
      | nil => simp
      | cons item items => simp
  | cons level levels => simp

end Draft

theorem draftOf_eq_ok_iff {text : Bytes} {draft : Draft} :
    draftOf text = .ok draft ↔
      draftFrom text.length (text.length + 1) {} text = .ok draft ∧ draft.openCount = 0 := by
  simp only [draftOf, except_bind_eq_ok, pure, Except.pure, Except.ok.injEq]
  constructor
  · rintro ⟨_, hdraft, _, hclosed, rfl⟩
    exact ⟨hdraft, Draft.checkClosed_eq_ok_iff.mp hclosed⟩
  · rintro ⟨hdraft, hclosed⟩
    exact ⟨draft, hdraft, (), Draft.checkClosed_eq_ok_iff.mpr hclosed, rfl⟩

theorem exists_renders {text : Bytes} {draft : Draft} (h : draftOf text = .ok draft) :
    ∃ nodes, Renders nodes text := by
  obtain ⟨hdraft, hopen⟩ := draftOf_eq_ok_iff.mp h
  obtain ⟨script, hscript, hperform⟩ := draftFrom_eq_ok_iff.mp hdraft
  obtain ⟨tokens, hspelled, hspaced⟩ := readScript_sound hscript (Nat.lt_succ_self _)
  have hcompletes := completes_of_perform hperform hopen
  generalize hops : script.map Prod.snd = ops at hcompletes hspelled
  cases hcompletes with
  | all nodes => exact ⟨nodes, tokens, (written_iff_spelled nodes).mpr hspelled, hspaced⟩

/-- A text that shows a forest is read as its content, or refused for its line items. -/
theorem draftOf_of_renders {nodes : List Node} {text : Bytes} (h : Renders nodes text)
    {draft : Draft} :
    draftOf text = .ok draft ↔
      OnOnePath nodes ∧ draft = ({} : Draft).absorb (content [] nodes) := by
  obtain ⟨tokens, hwritten, hspaced⟩ := h
  obtain ⟨script, hscript, hops⟩ := readScript_complete ((written_iff_spelled nodes).mp hwritten)
    hspaced (Nat.lt_succ_self _)
  have hperform (draft' : Draft) := @perform_iff nodes text.length {} draft' script hops 0
  have hstart := Draft.absorb_start (content_plain nodes [])
  rw [draftOf_eq_ok_iff, draftFrom_eq_ok_iff]
  constructor
  · rintro ⟨⟨_, hscript', hread⟩, _⟩
    cases hscript.symm.trans hscript'
    obtain ⟨⟨hlinear, _⟩, hdraft⟩ := (hperform draft).mp hread
    exact ⟨hlinear, hdraft⟩
  · rintro ⟨hlinear, rfl⟩
    refine ⟨⟨script, hscript, (hperform _).mpr ⟨⟨hlinear, Or.inl rfl⟩, rfl⟩⟩, ?_⟩
    rw [hstart]
    rfl

theorem toProgram_eq_programOf (nodes : List Node) (text : Bytes) (options : Options) :
    (({} : Draft).absorb (content [] nodes)).toProgram text options =
      programOf nodes text options := by
  rw [Draft.absorb_start (content_plain nodes [])]
  rfl

theorem denotes_iff_draftOf {format : Bytes} {options : Options} {program : Program} :
    Denotes format options program ↔
      ∃ draft, draftOf format = .ok draft ∧ program = draft.toProgram format options := by
  constructor
  · rintro ⟨nodes, hrenders, hpath, rfl⟩
    refine ⟨_, (draftOf_of_renders hrenders).mpr ⟨hpath, rfl⟩, ?_⟩
    rw [toProgram_eq_programOf]
  · rintro ⟨draft, hdraft, rfl⟩
    obtain ⟨nodes, hrenders⟩ := exists_renders hdraft
    obtain ⟨hpath, rfl⟩ := (draftOf_of_renders hrenders).mp hdraft
    exact ⟨nodes, hrenders, hpath, toProgram_eq_programOf nodes format options⟩

/-- Compiling fails for no other reason than that there is no draft. -/
theorem compile_eq_some_iff {report : Report} {options : Options} {program : Program} :
    (∃ report', Program.compile report options = .ok (some program, report')) ↔
      ∃ draft, draftOf report.source.bytes = .ok draft ∧
        program = draft.toProgram report.source.bytes options := by
  constructor
  · rintro ⟨report', h⟩
    simp only [Program.compile_eq, except_bind_eq_ok, Prod.exists] at h
    obtain ⟨draft?, settled, hsettle, h⟩ := h
    cases draft? with
    | none => cases h
    | some draft =>
        obtain ⟨hdraft, rfl⟩ := Report.settle_eq_some_iff.mp hsettle
        refine ⟨draft, hdraft, ?_⟩
        dsimp only at h
        split at h
        · obtain ⟨_, _, h⟩ := except_bind_eq_ok.mp h
          cases h
          rfl
        · cases h
          rfl
  · rintro ⟨draft, hdraft, rfl⟩
    have hsettle : report.settle 0 Cause.message (draftOf report.source.bytes) =
        .ok (some draft, report) := Report.settle_eq_some_iff.mpr ⟨hdraft, rfl⟩
    obtain ⟨warning, hwarning⟩ := Report.exists_record (Nat.zero_le report.source.size) .warning
      report.source.size Program.noFieldsWarning
    simp only [Program.compile_eq, hsettle, bind, Except.bind]
    split
    · exact ⟨report.add warning, by simp [Report.warning, hwarning, pure, Except.pure]⟩
    · exact ⟨_, rfl⟩

theorem ofFormat_eq_ok_iff {format : Bytes} {options : Options} {program : Program} :
    Program.ofFormat format options = .ok program ↔
      ∃ report, Program.compile (.ofBytes format) options = .ok (some program, report) := by
  unfold Program.ofFormat
  cases Program.compile (.ofBytes format) options with
  | error cause => simp
  | ok outcome =>
      obtain ⟨program?, report⟩ := outcome
      cases program? with
      | none =>
          dsimp only
          cases report.firstError? with
          | none => simp
          | some error => simp
      | some other => simp

theorem ofFormat_eq_ok_iff_draftOf {format : Bytes} {options : Options} {program : Program} :
    Program.ofFormat format options = .ok program ↔
      ∃ draft, draftOf format = .ok draft ∧ program = draft.toProgram format options :=
  ofFormat_eq_ok_iff.trans compile_eq_some_iff

/--
A format compiles, with or without a report to keep, to the program of the
forest that it shows, and every other text is refused.
-/
theorem compiles_iff_denotes (report : Report) (options : Options) (program : Program) :
    (Program.ofFormat report.source.bytes options = .ok program ↔
        Denotes report.source.bytes options program) ∧
      ((∃ report', Program.compile report options = .ok (some program, report')) ↔
        Denotes report.source.bytes options program) := by
  have hcompile (report : Report) :
      (∃ report', Program.compile report options = .ok (some program, report')) ↔
        Denotes report.source.bytes options program :=
    compile_eq_some_iff.trans denotes_iff_draftOf.symm
  exact ⟨ofFormat_eq_ok_iff.trans (hcompile (.ofBytes report.source.bytes)), hcompile report⟩

end JsonTable.Format
