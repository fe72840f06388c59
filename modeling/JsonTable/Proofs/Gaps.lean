import JsonTable.Proofs.Evaluations
import Mathlib.Data.List.Basic

/-!
# Tables with gaps

Where an evaluation has nothing to show there is a gap. Options have a say only in what a
gap is filled with: the rows, the gaps in them and all other cells are settled before,
also where the text for gaps happens to be that of a cell.
-/

namespace JsonTable

/-- What an evaluation was to show cannot be reached, is missing, or is a value without a text. -/
inductive Evaluation.Lacks (evaluation : Evaluation) : Prop where
  | unreachable {reason : Blocked} :
      evaluation.rule.path.descend evaluation.context = .error reason → Lacks evaluation
  | missing {landing : Document} :
      evaluation.rule.path.descend evaluation.context = .ok landing →
      landing.lookup evaluation.rule.key = none → Lacks evaluation
  | null {landing : Document} :
      evaluation.rule.path.descend evaluation.context = .ok landing →
      landing.lookup evaluation.rule.key = some .null → Lacks evaluation
  | invalid {landing : Document} :
      evaluation.rule.path.descend evaluation.context = .ok landing →
      landing.lookup evaluation.rule.key = some .invalid → Lacks evaluation

def Evaluation.shown? (evaluation : Evaluation) : Option Bytes :=
  (evaluation.rule.cell evaluation.context).toOption

def fill (nullText : Bytes) (table : List (List (Option Bytes))) : Rows :=
  table.map (List.map fun cell => cell.getD nullText)

def Program.gapped (program : Program) (document : Document) : List (List (Option Bytes)) :=
  (program.evaluations document).map (List.map Evaluation.shown?)

theorem Evaluation.text_eq_getD (options : Options) (evaluation : Evaluation) :
    evaluation.text options = evaluation.shown?.getD options.nullText :=
  evaluation.rule.value_evaluate options evaluation.context

/-- The four ways to lack a text are alike in that they, and nothing else, leave a gap. -/
theorem Evaluation.shown?_eq_none_iff (evaluation : Evaluation) :
    evaluation.shown? = none ↔ evaluation.Lacks := by
  constructor
  · intro h
    rw [shown?, Rule.cell, Rule.value] at h
    cases hpath : evaluation.rule.path.descend evaluation.context with
    | error reason => exact .unreachable hpath
    | ok landing =>
        cases hvalue : landing.lookup evaluation.rule.key with
        | none => exact .missing hpath hvalue
        | some value =>
            simp only [hpath, hvalue] at h
            cases value with
            | null => exact .null hpath hvalue
            | invalid => exact .invalid hpath hvalue
            | _ => cases h
  · intro h
    rw [shown?, Rule.cell, Rule.value]
    cases h with
    | unreachable hpath => simp [hpath, Except.map, Except.toOption]
    | missing hpath hvalue => simp [hpath, hvalue, Except.map, Except.toOption]
    | null hpath hvalue =>
        simp [hpath, hvalue, Document.HasText, Document.kind, Except.map, Except.toOption]
    | invalid hpath hvalue =>
        simp [hpath, hvalue, Document.HasText, Document.kind, Except.map, Except.toOption]

/-- To lack a text is to show the text for gaps, whatever that is. -/
theorem Evaluation.lacks_iff_forall_text (evaluation : Evaluation) :
    evaluation.Lacks ↔ ∀ options, evaluation.text options = options.nullText := by
  simp only [← evaluation.shown?_eq_none_iff, text_eq_getD]
  cases evaluation.shown? with
  | none => simp
  | some text =>
      have hother : text ≠ Byte.zero :: text := List.ne_cons_self
      simpa using ⟨{ nullText := Byte.zero :: text }, hother⟩

theorem Program.value_extract_eq_fill (program : Program) (document : Document) :
    (program.extract document).value =
      fill program.options.nullText (program.gapped document) := by
  rw [value_extract_eq_map, gapped, fill, List.map_map]
  simp [Function.comp_def, Evaluation.text_eq_getD]

/-- Two views that tell all entries apart tell all lists apart. -/
theorem eq_of_map_eq {α β : Type} {f g : α → β}
    (htell : ∀ a b, f a = f b → g a = g b → a = b) {as bs : List α}
    (hf : as.map f = bs.map f) (hg : as.map g = bs.map g) : as = bs := by
  have hboth : Function.Injective fun a => (f a, g a) := by
    intro a b h
    obtain ⟨hfirst, hsecond⟩ := Prod.mk.inj h
    exact htell a b hfirst hsecond
  apply List.map_injective_iff.mpr hboth
  rw [← List.zip_map', ← List.zip_map', hf, hg]

/-- Filling with two different texts tells where the gaps are, whatever the other cells show. -/
theorem eq_of_fill_eq {table other : List (List (Option Bytes))}
    (h : ∀ nullText, fill nullText table = fill nullText other) : table = other := by
  have hcell (a b : Option Bytes) (hempty : a.getD [] = b.getD [])
      (hzero : a.getD [Byte.zero] = b.getD [Byte.zero]) : a = b := by
    cases a <;> cases b <;> simp_all
  exact eq_of_map_eq (fun _ _ => eq_of_map_eq hcell) (h []) (h [Byte.zero])

/--
One table of texts and gaps gives the table for all options, by filling its gaps, and it is
the only one that does. The gaps are where an evaluation lacks what it was to show.
-/
theorem options_only_fill_gaps (program : Program) (document : Document) :
    (∀ table,
      (∀ format options,
        (Program.extract { program with format, options } document).value =
          fill options.nullText table) ↔
        table = program.gapped document) ∧
    ∀ evaluation : Evaluation, evaluation.shown? = none ↔ evaluation.Lacks := by
  have hgapped (format : Bytes) (options : Options) :
      (Program.extract { program with format, options } document).value =
        fill options.nullText (program.gapped document) :=
    Program.value_extract_eq_fill _ document
  refine ⟨fun table => ⟨fun htable => ?_, ?_⟩, Evaluation.shown?_eq_none_iff⟩
  · apply eq_of_fill_eq
    intro nullText
    calc
      fill nullText table =
          (Program.extract { program with options := { nullText } } document).value :=
        (htable program.format { nullText }).symm
      _ = fill nullText (program.gapped document) := hgapped program.format { nullText }
  · rintro rfl
    exact hgapped

end JsonTable
