import JsonTable.Proofs.Columns
import JsonTable.Proofs.Json.Grammar

/-!
# What a table shows

Paths, rules and line items only ever go into a document, so that whatever a table is
made from is a part of it: every cell that is no gap shows some value that stands
within the document.
-/

namespace JsonTable

namespace Document

/-- `part` is the document or stands somewhere within it. -/
def PartOf (part whole : Document) : Prop :=
  ∃ level, Json.Located whole level part

theorem PartOf.refl (d : Document) : d.PartOf d :=
  ⟨0, .top⟩

theorem PartOf.trans {part middle whole : Document} (h : part.PartOf middle)
    (hmiddle : middle.PartOf whole) : part.PartOf whole := by
  obtain ⟨depth, hdepth⟩ := hmiddle
  induction hdepth with
  | top => exact h
  | item hitem _ ih =>
      obtain ⟨level, hlevel⟩ := ih h
      exact ⟨level + 1, .item hitem hlevel⟩
  | member hmember _ ih =>
      obtain ⟨level, hlevel⟩ := ih h
      exact ⟨level + 1, .member hmember hlevel⟩

theorem partOf_array {items : List Document} {item : Document} (h : item ∈ items) :
    item.PartOf (.array items) :=
  ⟨1, .item h .top⟩

theorem partOf_of_lookup {d value : Document} {key : Bytes} (h : d.lookup key = some value) :
    value.PartOf d := by
  cases d with
  | object members =>
      obtain ⟨before, after, hmembers, _⟩ := List.lookup_eq_some_iff.mp h
      have hmember : (key, value) ∈ members := by simp [hmembers]
      exact ⟨1, .member hmember .top⟩
  | _ => cases h

end Document

open Document

/-! ## Paths -/

theorem Step.mem_of_findItem {matchKey matchValue : Bytes} {items : List Document}
    {found : Document} (h : findItem matchKey matchValue items = .ok found) : found ∈ items := by
  induction items with
  | nil => cases h
  | cons item items ih =>
      rw [findItem] at h
      split at h
      · cases h
      split at h
      · cases h
        exact List.mem_cons_self
      · exact List.mem_cons_of_mem item (ih h)

theorem Step.partOf_of_walk {step : Step} {d next : Document} (h : step.walk d = .ok next) :
    next.PartOf d := by
  unfold walk at h
  split at h
  · cases h
  split at h
  · cases h
  · next value hvalue =>
      have hpart := partOf_of_lookup hvalue
      split at h
      · cases h
        exact hpart
      · cases h
      · exact (partOf_array (mem_of_findItem h)).trans hpart
      · cases h

theorem Path.partOf_of_descend {path : Path} {d landing : Document}
    (h : path.descend d = .ok landing) : landing.PartOf d := by
  induction path generalizing d with
  | nil =>
      cases h
      exact .refl landing
  | cons step path ih =>
      rw [descend] at h
      split at h
      · cases h
      · next following hwalk =>
          split at h
          · cases h
          · next hdescend =>
              cases h
              exact (ih hdescend).trans (Step.partOf_of_walk hwalk)

/-! ## Contexts -/

theorem LineItem.partOf_of_mem_array {item : LineItem} {context x : Document}
    (h : x ∈ item.array context) : x.PartOf context := by
  rw [array] at h
  split at h
  · cases h
  · next landing hdescend =>
      split at h
      · next items hitems =>
          have hlanding := Path.partOf_of_descend hdescend
          exact (partOf_array h).trans ((partOf_of_lookup hitems).trans hlanding)
      · cases h

theorem Chosen.partOf {chain : List LineItem} {context : Document} {choice : List Document}
    (h : Chosen chain context choice) : ∀ x ∈ choice, x.PartOf context := by
  induction h with
  | nil => nofun
  | cons hx _ ih =>
      have hitem := LineItem.partOf_of_mem_array hx
      exact List.forall_mem_cons.mpr ⟨hitem, fun y hy => (ih y hy).trans hitem⟩

/-! ## Cells -/

theorem Rule.exists_partOf_of_cell {rule : Rule} {context : Document} {text : Bytes}
    (h : rule.cell context = .ok text) :
    ∃ value : Document, value.PartOf context ∧ value.cellText = .ok text := by
  rw [cell, Rule.value] at h
  split at h
  · cases h
  · next landing hdescend =>
      split at h
      · cases h
      · next value hlookup =>
          split at h
          · next htext =>
              cases h
              have hlanding := Path.partOf_of_descend hdescend
              exact ⟨value, (partOf_of_lookup hlookup).trans hlanding, cellText_of_hasText htext⟩
          · cases h

theorem Rule.value_evaluate_cases (options : Options) (rule : Rule) (context : Document) :
    (rule.evaluate options context).value = options.nullText ∨
      ∃ value : Document, value.PartOf context ∧
        value.cellText = .ok (rule.evaluate options context).value := by
  rw [value_evaluate]
  cases hcell : rule.cell context with
  | error gap => exact Or.inl rfl
  | ok text => exact Or.inr (exists_partOf_of_cell hcell)

/-- A cell of a table fills a gap or shows a part of the document. -/
theorem Program.cell_of_mem_extract {program : Program} {document : Document} {row : Row}
    {cell : Bytes} (hrow : row ∈ (program.extract document).value) (hcell : cell ∈ row) :
    cell = program.options.nullText ∨
      ∃ value : Document, value.PartOf document ∧ value.cellText = .ok cell := by
  rw [value_extract_eq_rows] at hrow
  obtain ⟨choice, hchosen, hcells⟩ := exists_chosen_of_mem_rows hrow
  have hmem : some cell ∈ row.map some := List.mem_map.mpr ⟨cell, hcell, rfl⟩
  rw [hcells] at hmem
  obtain ⟨column, _, hcolumn⟩ := List.mem_map.mp hmem
  obtain ⟨context, hcontext, rfl⟩ := Option.map_eq_some_iff.mp hcolumn
  have hpart : context.PartOf document := by
    rcases List.mem_cons.mp (List.mem_of_getElem? hcontext) with rfl | hchoice
    · exact .refl context
    · exact hchosen.partOf context hchoice
  rcases column.rule.value_evaluate_cases program.options context with hgap | ⟨value, hvalue, htext⟩
  · exact Or.inl hgap
  · exact Or.inr ⟨value, hvalue.trans hpart, htext⟩

end JsonTable
