import JsonTable.Proofs.Columns
import JsonTable.Proofs.Gaps

/-!
# Notes and gaps

An extraction goes through a program depth first: it evaluates rules and looks arrays up, and
leaves rules out only where there is no row for their cells. With debugging on it notes
exactly those of its visits that miss something, in order. Every cell of the table comes
from a visit, so that a run without notes has no gaps and has left out no items.
-/

namespace JsonTable

open Bytes

inductive Visit where
  | evaluate (evaluation : Evaluation)
  | lookUp (item : LineItem) (context : Document)
deriving Repr, DecidableEq

def LineItem.Reaches (item : LineItem) (context : Document) (items : List Document) : Prop :=
  ∃ landing, item.path.descend context = .ok landing ∧
    landing.lookup item.key = some (.array items)

namespace Visit

/-- The note about what a visit did not find, if there is anything to note. -/
def finding? : Visit → Option Note
  | .evaluate evaluation =>
      match evaluation.rule.cell evaluation.context with
      | .ok _ => none
      | .error gap => some (.gap gap)
  | .lookUp item context =>
      match item.items context with
      | .ok _ => none
      | .error reason => some (.noArray reason)

def Misses : Visit → Prop
  | .evaluate evaluation => evaluation.Lacks
  | .lookUp item context => ∀ items, ¬ item.Reaches context items

def notes (options : Options) (visit : Visit) : List Note :=
  if options.debug then visit.finding?.toList else []

end Visit

def ruleVisits (rules : List Rule) (context : Document) : List Visit :=
  (evaluations rules context).map .evaluate

/-- The visits down a chain; rules after a line item are left out where it gives no rows. -/
def chainVisits : List LineItem → Document → List Visit
  | [], _ => []
  | item :: below, context =>
      .lookUp item context ::
        (item.array context).flatMap fun x =>
          ruleVisits item.pre x ++ chainVisits below x
            ++ if (chainEvaluations below x).isEmpty then [] else ruleVisits item.post x

def Program.visits (program : Program) (document : Document) : List Visit :=
  ruleVisits program.root document ++ chainVisits program.chain document
    ++ if (chainEvaluations program.chain document).isEmpty then []
      else ruleVisits program.tail document

/-! ## What a visit misses -/

theorem LineItem.items_eq_ok_iff {item : LineItem} {context : Document} {items : List Document} :
    item.items context = .ok items ↔ item.Reaches context items := by
  rw [LineItem.items, Reaches]
  cases item.path.descend context with
  | error reason => simp
  | ok landing =>
      cases hvalue : landing.lookup item.key with
      | none => simp [hvalue]
      | some value => cases value <;> simp [hvalue]

theorem Visit.isSome_finding?_iff (visit : Visit) : visit.finding?.isSome ↔ visit.Misses := by
  cases visit with
  | evaluate evaluation =>
      rw [Misses, ← evaluation.shown?_eq_none_iff, Evaluation.shown?, finding?]
      cases evaluation.rule.cell evaluation.context <;> simp [Except.toOption]
  | lookUp item context =>
      simp only [Misses, ← LineItem.items_eq_ok_iff, finding?]
      cases item.items context <;> simp

/-! ## Notes are taken in the order of the visits -/

section Notes

variable {options : Options}

theorem notes_evaluateRules (rules : List Rule) (context : Document) :
    (evaluateRules options rules context).notes =
      (ruleVisits rules context).flatMap (Visit.notes options) := by
  rw [evaluateRules, Traced.notes_mapM, ruleVisits, evaluations, List.map_map, List.flatMap_map]
  congr 1
  funext rule
  rw [Rule.notes_evaluate, Function.comp_apply, Visit.notes, Visit.finding?]
  cases rule.cell context <;> simp

theorem notes_itemsOrNone (item : LineItem) (context : Document) :
    (item.itemsOrNone options context).notes = Visit.notes options (.lookUp item context) := by
  rw [LineItem.itemsOrNone, Visit.notes, Visit.finding?]
  cases item.items context <;> simp

/-- Rules that complete rows are left out if there are none, whatever cells were handed down. -/
theorem notes_completed (chain : List LineItem) (row : Row) (context : Document)
    (rules : List Rule) (x : Document) :
    (completed options rules x (rowsBelow options chain row context).value).notes =
      (if (chainEvaluations chain context).isEmpty then [] else ruleVisits rules x).flatMap
        (Visit.notes options) := by
  rw [completed, value_rowsBelow_eq_map, List.isEmpty_map]
  split <;> simp [notes_evaluateRules]

theorem notes_rowsBelow (chain : List LineItem) (row : Row) (context : Document) :
    (rowsBelow options chain row context).notes =
      (chainVisits chain context).flatMap (Visit.notes options) := by
  induction chain generalizing row context with
  | nil => simp [rowsBelow, chainVisits]
  | cons item below ih =>
      rw [rowsBelow, chainVisits]
      simp only [Traced.notes_bind, Traced.notes_mapM, Traced.notes_pure, List.append_nil,
        notes_itemsOrNone, LineItem.value_itemsOrNone, notes_evaluateRules, ih, notes_completed,
        List.flatMap_cons, List.flatMap_assoc, List.flatMap_append, List.append_assoc]

theorem Program.notes_extract (program : Program) (document : Document) :
    (program.extract document).notes =
      (program.visits document).flatMap (Visit.notes program.options) := by
  rw [extract, visits]
  simp only [Traced.notes_bind, notes_evaluateRules, notes_rowsBelow, notes_completed,
    List.flatMap_append, List.append_assoc]

/-- A line of the log is not empty, so that the log is empty only if there are no notes. -/
theorem logText_eq_nil_iff (notes : List Note) : logText notes = [] ↔ notes = [] := by
  rw [logText, List.flatMap_eq_nil_iff]
  constructor
  · intro h
    refine List.eq_nil_iff_forall_not_mem.mpr fun note hnote => ?_
    simpa using h note hnote
  · rintro rfl
    simp

end Notes

/-! ## Every cell and every array comes from a visit -/

theorem evaluate_mem_ruleVisits {rules : List Rule} {context : Document} {e : Evaluation}
    (h : e ∈ evaluations rules context) : .evaluate e ∈ ruleVisits rules context :=
  List.mem_map_of_mem h

/-- The rules that complete a row are visited, since there is a row. -/
theorem evaluate_mem_chainVisits {chain : List LineItem} {context : Document}
    {row : List Evaluation} {e : Evaluation} (hrow : row ∈ chainEvaluations chain context)
    (he : e ∈ row) : .evaluate e ∈ chainVisits chain context := by
  induction chain generalizing context row with
  | nil =>
      rw [chainEvaluations, List.mem_singleton] at hrow
      subst hrow
      cases he
  | cons item below ih =>
      rw [chainEvaluations, List.mem_flatMap] at hrow
      obtain ⟨x, hx, hrow⟩ := hrow
      obtain ⟨inner, hinner, rfl⟩ := List.mem_map.mp hrow
      refine List.mem_cons_of_mem _ (List.mem_flatMap.mpr ⟨x, hx, ?_⟩)
      rw [List.isEmpty_eq_false_iff.mpr (List.ne_nil_of_mem hinner)]
      simp only [List.mem_append] at he ⊢
      rcases he with (hpre | hinside) | hpost
      · exact Or.inl (Or.inl (evaluate_mem_ruleVisits hpre))
      · exact Or.inl (Or.inr (ih hinner hinside))
      · exact Or.inr (evaluate_mem_ruleVisits hpost)

theorem Program.evaluate_mem_visits {program : Program} {document : Document}
    {row : List Evaluation} {e : Evaluation} (hrow : row ∈ program.evaluations document)
    (he : e ∈ row) : .evaluate e ∈ program.visits document := by
  obtain ⟨inner, hinner, rfl⟩ := List.mem_map.mp hrow
  rw [visits, List.isEmpty_eq_false_iff.mpr (List.ne_nil_of_mem hinner)]
  simp only [List.mem_append] at he ⊢
  rcases he with (hroot | hinside) | htail
  · exact Or.inl (Or.inl (evaluate_mem_ruleVisits hroot))
  · exact Or.inl (Or.inr (evaluate_mem_chainVisits hinner hinside))
  · exact Or.inr (evaluate_mem_ruleVisits htail)

/-- Wherever a choice of items leads, the next array is looked up. -/
theorem Chosen.lookUp_mem_chainVisits {before after : List LineItem} {item : LineItem}
    {context : Document} {choice : List Document} (h : Chosen before context choice) :
    .lookUp item (choice.getLastD context) ∈ chainVisits (before ++ item :: after) context := by
  induction h with
  | nil => exact List.mem_cons_self
  | @cons outer below context x choice hx _ ih =>
      rw [List.getLastD_cons]
      refine List.mem_cons_of_mem _ (List.mem_flatMap.mpr ⟨x, hx, ?_⟩)
      exact List.mem_append_left _ (List.mem_append_right _ ih)

theorem Program.lookUp_mem_visits {program : Program} {document : Document}
    {before after : List LineItem} {item : LineItem} {choice : List Document}
    (hchain : program.chain = before ++ item :: after) (hchoice : Chosen before document choice) :
    .lookUp item (choice.getLastD document) ∈ program.visits document := by
  rw [visits, hchain]
  exact List.mem_append_left _ (List.mem_append_right _ hchoice.lookUp_mem_chainVisits)

/-- Without gaps there is nothing that options could fill. -/
theorem Program.value_extract_eq_of_no_gaps {program : Program} {document : Document}
    (h : ∀ row ∈ program.evaluations document, ∀ e ∈ row, ¬ Evaluation.Lacks e)
    (options : Options) :
    (Program.extract { program with options } document).value =
      (program.extract document).value := by
  rw [Program.value_extract_eq_map, Program.value_extract_eq_map]
  refine List.map_congr_left fun row hrow => List.map_congr_left fun e he => ?_
  have hshown : e.shown? ≠ none := mt e.shown?_eq_none_iff.mp (h row hrow e he)
  obtain ⟨text, htext⟩ := Option.ne_none_iff_exists'.mp hshown
  simp [Evaluation.text_eq_getD, htext]

/--
Without debugging nothing is noted; with it the notes are those of the visits that miss
something, in the order of the visits, one for each: of the evaluations that show the text
for gaps, and of the line items without an array. All that fills a cell is among the
visits. So if nothing is logged then the table has no gap to fill, and each choice of
items leads to the array of the next line item.
-/
theorem notes_explain_every_gap (program : Program) (document : Document) :
    (program.options.debug = false → (program.extract document).notes = []) ∧
    (program.options.debug = true →
      (program.extract document).notes = (program.visits document).filterMap Visit.finding?) ∧
    (∀ visit : Visit, visit.finding?.isSome ↔ visit.Misses) ∧
    (∀ e : Evaluation, e.Lacks ↔ ∀ options, e.text options = options.nullText) ∧
    (∀ row ∈ program.evaluations document, ∀ e ∈ row, .evaluate e ∈ program.visits document) ∧
    (program.options.debug = true → logText (program.extract document).notes = [] →
      (∀ options, (Program.extract { program with options } document).value =
        (program.extract document).value) ∧
      ∀ before item after choice, program.chain = before ++ item :: after →
        Chosen before document choice →
          ∃ items, LineItem.Reaches item (choice.getLastD document) items) := by
  have hnotes := program.notes_extract document
  have hdebug (h : program.options.debug = true) :
      (program.extract document).notes = (program.visits document).filterMap Visit.finding? := by
    rw [hnotes, List.filterMap_eq_flatMap_toList]
    congr 1
    funext visit
    simp [Visit.notes, h]
  refine ⟨fun h => ?_, hdebug, Visit.isSome_finding?_iff, Evaluation.lacks_iff_forall_text,
    fun _ hrow _ he => Program.evaluate_mem_visits hrow he, fun h hlog => ?_⟩
  · rw [hnotes]
    simp [Visit.notes, h]
  · have hvisits : ∀ visit ∈ program.visits document, ¬ visit.Misses := by
      rw [logText_eq_nil_iff, hdebug h, List.filterMap_eq_nil_iff] at hlog
      intro visit hvisit
      rw [← visit.isSome_finding?_iff, hlog visit hvisit]
      simp
    constructor
    · exact program.value_extract_eq_of_no_gaps fun _ hrow _ he =>
        hvisits _ (Program.evaluate_mem_visits hrow he)
    · intro before item after choice hchain hchoice
      have hfound := hvisits _ (Program.lookUp_mem_visits hchain hchoice)
      simpa [Visit.Misses] using hfound

/--
Two nested line items. In the first document the outer array has an item with an inner item,
and one without an inner array, for which the rule after the inner line item is left out.
-/
theorem notes_explain_gaps_of_nested_items :
    let program : Program := ⟨[], { debug := true }, [⟨[], ascii "r"⟩],
      [⟨[], ascii "a", [⟨[], ascii "x"⟩], [⟨[], ascii "z"⟩]⟩,
        ⟨[], ascii "b", [⟨[], ascii "y"⟩], []⟩], [⟨[], ascii "t"⟩]⟩
    let gappy : Document := .object [(ascii "a", .array [
      .object [(ascii "b", .array [.object [(ascii "y", .null)]]),
        (ascii "x", .number (ascii "1"))],
      .object []])]
    let whole : Document := .object [
      (ascii "a", .array [.object [(ascii "b", .array [.object [(ascii "y", .bool false)]]),
        (ascii "x", .number (ascii "1")), (ascii "z", .string [])]]),
      (ascii "r", .bool true), (ascii "t", .string (ascii "s"))]
    (program.extract gappy).notes =
      [.gap (.missing ⟨[], ascii "r"⟩), .gap (.null ⟨[], ascii "y"⟩),
        .gap (.missing ⟨[], ascii "z"⟩), .gap (.missing ⟨[], ascii "x"⟩),
        .noArray (.missing (ascii "b") []), .gap (.missing ⟨[], ascii "t"⟩)] ∧
    logText (program.extract whole).notes = [] ∧
      ∀ options, (Program.extract { program with options } whole).value =
        (program.extract whole).value := by
  intro program gappy whole
  have hlog : logText (program.extract whole).notes = [] := rfl
  obtain ⟨_, hnotes, _⟩ := notes_explain_every_gap program gappy
  obtain ⟨_, _, _, _, _, hwhole⟩ := notes_explain_every_gap program whole
  exact ⟨hnotes rfl, hlog, (hwhole rfl hlog).1⟩

end JsonTable
