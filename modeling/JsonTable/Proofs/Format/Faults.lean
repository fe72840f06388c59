import JsonTable.Proofs.Faults
import JsonTable.Proofs.Format.Columns

/-!
# Where a format is at fault

As with JSON, whatever is wrong is placed inside of the format. A misuse would be
a line item that is opened after one was closed, for which there is no place in
the chain; reading refuses its key before it gets there. A program that is
compiled has every printed key of the format in its columns, and every line item
in its chain.
-/

namespace JsonTable.Format

/-! ## Operations -/

theorem readKey_faults (role : KeyRole) (text : Bytes) :
    FaultsWithin text.length (readKey role text) := by
  have hskip := length_skipBlanks_le text
  rw [readKey]
  cases hnext : skipBlanks text with
  | nil => exact faultsWithin_faultAt _ (Nat.zero_le _) (Nat.le_refl _)
  | cons b rest =>
      rw [hnext] at hskip
      dsimp only
      split
      · exact faultsWithin_faultAt _ hskip (by simp)
      · cases rest.dropWhile (· != Byte.quote) with
        | nil => exact faultsWithin_faultToEnd _ hskip
        | cons quote after =>
            dsimp only
            split
            · exact faultsWithin_faultAt _ hskip (by simp)
            · exact faultsWithin_ok _ _

theorem readOpen_faults (opening : Opening) (key text : Bytes) :
    FaultsWithin text.length (readOpen opening key text) := by
  have hskip := length_skipBlanks_le text
  rw [readOpen]
  cases hnext : skipBlanks text with
  | nil => exact faultsWithin_faultAt _ (Nat.zero_le _) (Nat.le_refl _)
  | cons b rest =>
      rw [hnext] at hskip
      dsimp only
      split
      · exact faultsWithin_ok _ _
      · exact faultsWithin_faultAt _ hskip (by simp)

theorem length_readKey_lt {role : KeyRole} {text key after : Bytes}
    (h : readKey role text = .ok (key, after)) : after.length < text.length :=
  length_lt_of_token (readKey_eq_ok_iff.mp h).2

theorem length_readOpen_lt {opening : Opening} {key text after : Bytes}
    (h : readOpen opening key text = .ok after) : after.length < text.length :=
  length_lt_of_token (readOpen_eq_ok_iff.mp h)

theorem readMemberStep_faults (text : Bytes) :
    FaultsWithin text.length (readMemberStep text) := by
  refine (readKey_faults .memberKey text).bind fun reading hkey => ?_
  obtain ⟨key, rest⟩ := reading
  have hrest := length_readKey_lt hkey
  exact ((readOpen_faults .member key rest).mono (by omega)).bind fun _ _ => faultsWithin_ok _ _

theorem readElementStep_faults (text : Bytes) :
    FaultsWithin text.length (readElementStep text) := by
  refine (readKey_faults .arrayKey text).bind fun reading hkey => ?_
  obtain ⟨key, afterKey⟩ := reading
  have hafterKey := length_readKey_lt hkey
  refine ((readOpen_faults .array key afterKey).mono (by omega)).bind fun inner hopen => ?_
  have hinner := length_readOpen_lt hopen
  refine ((readKey_faults .matchKey inner).mono (by omega)).bind fun reading hmatchKey => ?_
  obtain ⟨matchKey, afterMatchKey⟩ := reading
  have hafterMatchKey := length_readKey_lt hmatchKey
  have hskip := length_skipBlanks_le afterMatchKey
  dsimp only
  cases hequals : Bytes.after? [Byte.equals] (skipBlanks afterMatchKey) with
  | none => exact faultsWithin_faultAt _ (by omega) (Nat.le_add_left _ _)
  | some value =>
      have hvalue := congrArg List.length (Bytes.after?_eq_some_iff.mp hequals)
      rw [List.length_append] at hvalue
      exact ((readKey_faults .matchValue value).mono (by omega)).bind
        fun _ _ => faultsWithin_ok _ _

theorem readLineItem_faults (anyClosed : Bool) (text : Bytes) :
    FaultsWithin text.length (readLineItem anyClosed text) := by
  have htail : text.tail.length ≤ text.length := by
    rw [List.length_tail]
    omega
  refine ((readKey_faults .lineItemKey text.tail).mono htail).bind fun reading hkey => ?_
  obtain ⟨key, rest⟩ := reading
  have hrest := length_readKey_lt hkey
  cases anyClosed with
  | true => exact faultsWithin_faultAt _ (Nat.le_refl _) (by omega)
  | false =>
      exact ((readOpen_faults .lineItem key rest).mono (by omega)).bind
        fun _ _ => faultsWithin_ok _ _

theorem readOperation_faults (anyClosed : Bool) (b : UInt8) (rest : Bytes) :
    FaultsWithin (b :: rest).length (readOperation anyClosed b rest) := by
  have hrest : rest.length ≤ (b :: rest).length := Nat.le_succ _
  unfold readOperation
  split
  · exact (readMemberStep_faults rest).mono hrest
  split
  · exact (readElementStep_faults rest).mono hrest
  split
  · exact readLineItem_faults anyClosed (b :: rest)
  split
  · exact faultsWithin_ok _ _
  split
  · exact (readKey_faults .printedKey (b :: rest)).bind fun _ _ => faultsWithin_ok _ _
  · exact faultsWithin_faultAt _ (Nat.le_refl _) (by simp)

/-! ## Drafts -/

/-- That a line item was closed can only keep an operation from being read. -/
theorem readOperation_of_anyClosed {anyClosed : Bool} {b : UInt8} {rest : Bytes}
    {result : Operation × Bytes} (h : readOperation anyClosed b rest = .ok result) :
    readOperation false b rest = .ok result := by
  cases anyClosed with
  | false => exact h
  | true =>
      by_cases hb : b = Byte.plus
      · subst hb
        exact absurd h readLineItem_after_close
      · rwa [readOperation_anyClosed hb] at h

theorem length_readOperation_lt {anyClosed : Bool} {b : UInt8} {rest after : Bytes}
    {operation : Operation} (h : readOperation anyClosed b rest = .ok (operation, after)) :
    after.length < (b :: rest).length := by
  obtain ⟨_, _, _, hlength⟩ := readOperation_sound (readOperation_of_anyClosed h)
  exact hlength

/-- Once a line item was closed, none is opened any more. -/
theorem readOperation_openItem {anyClosed : Bool} {b : UInt8} {rest after key : Bytes}
    (h : readOperation anyClosed b rest = .ok (.openItem key, after)) : anyClosed = false := by
  unfold readOperation at h
  split at h
  · simp [readMemberStep, except_bind_eq_ok, pure, Except.pure] at h
  split at h
  · simp only [readElementStep, except_bind_eq_ok] at h
    obtain ⟨_, _, _, _, _, _, h⟩ := h
    split at h
    · cases h
    · obtain ⟨_, _, h⟩ := except_bind_eq_ok.mp h
      cases h
  split at h
  · cases anyClosed with
    | false => rfl
    | true => exact absurd h readLineItem_after_close
  split at h
  · cases h
  split at h
  · obtain ⟨_, _, h⟩ := except_bind_eq_ok.mp h
    cases h
  · cases h

namespace Draft

theorem apply_faults {draft : Draft} {operation : Operation} {size position left : Nat}
    (hleft : left ≤ size)
    (hopen : ∀ key, operation = .openItem key → draft.anyClosed = false) :
    FaultsWithin size (draft.apply position left operation) := by
  cases operation with
  | descend step => exact faultsWithin_ok _ _
  | print key => exact faultsWithin_ok _ _
  | openItem key =>
      rw [apply, hopen key rfl]
      exact faultsWithin_ok _ _
  | close =>
      rw [apply]
      cases draft.close? with
      | some next => exact faultsWithin_ok _ _
      | none => exact faultsWithin_error ⟨hleft, Nat.le_add_left _ _⟩

theorem checkClosed_faults (size : Nat) (draft : Draft) :
    FaultsWithin size (draft.checkClosed size) := by
  unfold checkClosed
  split
  · exact faultsWithin_ok _ _
  · exact faultsWithin_error ⟨Nat.sub_le _ _, Nat.le_succ _⟩
  · exact faultsWithin_error ⟨Nat.sub_le _ _, Nat.le_succ _⟩

end Draft

/-- In each round reading and carrying out fail inside of what is left of the text. -/
theorem draftFrom_faults {size rounds : Nat} {draft : Draft} {text : Bytes}
    (h : text.length ≤ size) : FaultsWithin size (draftFrom size rounds draft text) := by
  induction rounds generalizing draft text with
  | zero => exact faultsWithin_ok _ _
  | succ rounds ih =>
      have hskip := length_skipBlanks_le text
      rw [draftFrom]
      cases hnext : skipBlanks text with
      | nil => exact faultsWithin_ok _ _
      | cons b rest =>
          rw [hnext] at hskip
          have hleft : (b :: rest).length ≤ size := Nat.le_trans hskip h
          refine ((readOperation_faults draft.anyClosed b rest).mono hleft).bind
            fun reading hread => ?_
          obtain ⟨operation, after⟩ := reading
          have hafter := length_readOperation_lt hread
          have hopen : ∀ key, operation = .openItem key → draft.anyClosed = false := by
            intro key hkey
            rw [hkey] at hread
            exact readOperation_openItem hread
          exact (Draft.apply_faults hleft hopen).bind fun _ _ => ih (by omega)

theorem draftOf_faults (text : Bytes) : FaultsWithin text.length (draftOf text) :=
  (draftFrom_faults (Nat.le_refl _)).bind fun draft _ =>
    (draft.checkClosed_faults text.length).bind fun _ _ => faultsWithin_ok _ _

/-! ## Keys -/

mutual

def Node.printedKeys : Node → List Bytes
  | .print key => [key]
  | .step _ nodes => printedKeys nodes
  | .item _ nodes => printedKeys nodes

def printedKeys : List Node → List Bytes
  | [] => []
  | node :: nodes => node.printedKeys ++ printedKeys nodes

end

mutual

def Node.itemKeys : Node → List Bytes
  | .print _ => []
  | .step _ nodes => itemKeys nodes
  | .item key nodes => key :: itemKeys nodes

def itemKeys : List Node → List Bytes
  | [] => []
  | node :: nodes => node.itemKeys ++ itemKeys nodes

end

mutual

theorem Node.map_key_columns :
    (node : Node) → (depth : Nat) → (path : Path) →
      (node.columns depth path).map (fun column => column.rule.key) = node.printedKeys
  | .print _, _, _ => rfl
  | .step step nodes, depth, path => map_key_columns nodes depth (path ++ [step])
  | .item _ nodes, depth, _ => map_key_columns nodes (depth + 1) []

theorem map_key_columns :
    (nodes : List Node) → (depth : Nat) → (path : Path) →
      (columns depth path nodes).map (fun column => column.rule.key) = printedKeys nodes
  | [], _, _ => rfl
  | node :: nodes, depth, path => by
      rw [columns, List.map_append, node.map_key_columns, map_key_columns nodes, printedKeys]

end

mutual

theorem Node.map_key_chain :
    (node : Node) → (path : Path) →
      (node.content path).chain.map LineItem.key = node.itemKeys
  | .print _, _ => rfl
  | .step step nodes, path => map_key_chain nodes (path ++ [step])
  | .item key nodes, _ => by
      rw [Node.content, List.map_cons, map_key_chain nodes, Node.itemKeys]

/-- No line item is lost where contents are put side by side. -/
theorem map_key_chain :
    (nodes : List Node) → (path : Path) →
      (content path nodes).chain.map LineItem.key = itemKeys nodes
  | [], _ => rfl
  | node :: nodes, path => by
      rw [content, Content.append_chain, List.map_append, node.map_key_chain,
        map_key_chain nodes, itemKeys]

end

theorem keys_of_renders {nodes : List Node} {format : Bytes} {draft : Draft}
    (options : Options) (hdraft : draftOf format = .ok draft)
    (hrenders : Renders nodes format) :
    (draft.toProgram format options).columns.map (fun column => column.rule.key) =
        printedKeys nodes ∧
      (draft.toProgram format options).chain.map LineItem.key = itemKeys nodes := by
  have hprogram : Program.ofFormat format options = .ok (draft.toProgram format options) :=
    ofFormat_eq_ok_iff_draftOf.mpr ⟨draft, hdraft, rfl⟩
  refine ⟨?_, ?_⟩
  · rw [← columns_eq_of_renders hprogram hrenders, map_key_columns]
  · obtain ⟨_, rfl⟩ := (draftOf_of_renders hrenders).mp hdraft
    rw [toProgram_eq_programOf]
    exact map_key_chain nodes []

/-! ## Compiling with a report -/

theorem compile_outcome (report : Report) (options : Options) :
    (∃ draft report', draftOf report.source.bytes = .ok draft ∧
        Program.compile report options =
          .ok (some (draft.toProgram report.source.bytes options), report') ∧
        ((draft.toProgram report.source.bytes options).columnCount ≠ 0 ∧ report' = report ∨
          (draft.toProgram report.source.bytes options).columnCount = 0 ∧
            ∃ warning : Diagnostic, report' = report.add warning ∧
              warning.severity = .warning ∧ warning.message = Program.noFieldsWarning)) ∨
      ∃ error : Diagnostic, Program.compile report options = .ok (none, report.add error) ∧
        error.ErrorWithin report.source.size := by
  have hfaults : FaultsWithin (report.source.size - 0) (draftOf report.source.bytes) := by
    rw [Nat.sub_zero, Source.size_eq]
    exact draftOf_faults report.source.bytes
  rcases Report.settle_outcome (Nat.zero_le _) hfaults Cause.message with
    ⟨draft, hdraft, hsettled⟩ | ⟨_, error, hsettled, herror⟩
  · left
    by_cases hcount : (draft.toProgram report.source.bytes options).columnCount = 0
    · obtain ⟨warning, hwarning, hseverity, _, _, hmessage⟩ :=
        Report.exists_record_eq (Nat.zero_le report.source.size) .warning report.source.size
          Program.noFieldsWarning
      refine ⟨draft, report.add warning, hdraft, ?_,
        Or.inr ⟨hcount, warning, rfl, hseverity, hmessage⟩⟩
      simp only [Program.compile_eq, hsettled, bind, Except.bind, if_pos hcount, Report.warning,
        hwarning]
      rfl
    · refine ⟨draft, report, hdraft, ?_, Or.inl ⟨hcount, rfl⟩⟩
      simp only [Program.compile_eq, hsettled, bind, Except.bind, if_neg hcount]
      rfl
  · refine Or.inr ⟨error, ?_, herror⟩
    simp only [Program.compile_eq, hsettled, bind, Except.bind]
    rfl

theorem ofFormat_of_refused {format : Bytes} {options : Options} {error : Diagnostic}
    (hcompile : Program.compile (.ofBytes format) options =
      .ok (none, (Report.ofBytes format).add error))
    (herror : error.severity = .error) :
    Program.ofFormat format options = .error (.rejected error) := by
  rw [Program.ofFormat, hcompile]
  simp only [Report.firstError?_add herror]

/--
Compiling gives a program for the format, or it adds one error inside of the
format to the report; never is it a misuse. A program has one column for each
printed key of the format and one line item for each that the format opens, in
the order of the format, and nothing is recorded with it but the warning that it
has no columns, where it has none. Without a report the refusal has the error
and its words.
-/
theorem compiles_or_reports_once (report : Report) (options : Options) :
    ((∃ program report', Program.compile report options = .ok (some program, report') ∧
        program.format = report.source.bytes ∧
        (∃ nodes, Renders nodes report.source.bytes) ∧
        (∀ nodes, Renders nodes report.source.bytes →
          program.columns.map (fun column => column.rule.key) = printedKeys nodes ∧
            program.columnCount = (printedKeys nodes).length ∧
            program.chain.map LineItem.key = itemKeys nodes) ∧
        (program.columnCount ≠ 0 ∧ report' = report ∨
          program.columnCount = 0 ∧
            ∃ warning : Diagnostic, report' = report.add warning ∧
              warning.severity = .warning ∧ warning.message = Program.noFieldsWarning)) ∨
      ∃ error : Diagnostic, Program.compile report options = .ok (none, report.add error) ∧
        error.ErrorWithin report.source.size) ∧
    ∀ format,
      (∃ program report',
          Program.compile (.ofBytes format) options = .ok (some program, report') ∧
            Program.ofFormat format options = .ok program) ∨
        ∃ error : Diagnostic,
          Program.compile (.ofBytes format) options =
              .ok (none, (Report.ofBytes format).add error) ∧
            Program.ofFormat format options = .error (.rejected error) ∧
            (Refusal.rejected error).message = error.toBytes := by
  refine ⟨?_, fun format => ?_⟩
  · rcases compile_outcome report options with
      ⟨draft, report', hdraft, hcompile, hrecorded⟩ | herror
    · left
      refine ⟨_, report', hcompile, rfl, exists_renders hdraft, fun nodes hrenders => ?_,
        hrecorded⟩
      obtain ⟨hprinted, hitems⟩ := keys_of_renders options hdraft hrenders
      have hcount := congrArg List.length hprinted
      rw [List.length_map, Program.length_columns] at hcount
      exact ⟨hprinted, hcount, hitems⟩
    · exact Or.inr herror
  · rcases compile_outcome (.ofBytes format) options with
      ⟨draft, report', hdraft, hcompile, _⟩ | ⟨error, hcompile, herror⟩
    · exact Or.inl ⟨_, report', hcompile, ofFormat_eq_ok_iff.mpr ⟨report', hcompile⟩⟩
    · exact Or.inr ⟨error, hcompile, ofFormat_of_refused hcompile herror.severity_eq, rfl⟩

open Bytes in
/-- A key before a line item, one in it, and one after a step that is closed again. -/
theorem compiles_keys_around_line_item :
    ∃ program nodes,
      Program.compile (.ofBytes (ascii "\"a\" +\"b\"[.\"c\"[\"d\"] \"e\"]")) {} =
          .ok (some program, .ofBytes (ascii "\"a\" +\"b\"[.\"c\"[\"d\"] \"e\"]")) ∧
        Renders nodes (ascii "\"a\" +\"b\"[.\"c\"[\"d\"] \"e\"]") ∧
        printedKeys nodes = [ascii "a", ascii "d", ascii "e"] ∧ itemKeys nodes = [ascii "b"] := by
  have hcompile : Program.compile (.ofBytes (ascii "\"a\" +\"b\"[.\"c\"[\"d\"] \"e\"]")) {} =
      .ok (some _, .ofBytes (ascii "\"a\" +\"b\"[.\"c\"[\"d\"] \"e\"]")) := rfl
  obtain ⟨houtcome, _⟩ :=
    compiles_or_reports_once (.ofBytes (ascii "\"a\" +\"b\"[.\"c\"[\"d\"] \"e\"]")) {}
  rcases houtcome with ⟨program, report', hprogram, _, ⟨nodes, hnodes⟩, hkeys, _⟩ | ⟨_, hrefused, _⟩
  · cases hcompile.symm.trans hprogram
    obtain ⟨hprinted, _, hitems⟩ := hkeys nodes hnodes
    exact ⟨_, nodes, hcompile, hnodes, hprinted.symm, hitems.symm⟩
  · cases hcompile.symm.trans hrefused

end JsonTable.Format
