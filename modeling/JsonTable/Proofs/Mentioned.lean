import JsonTable.Proofs.Gaps
import Mathlib.Data.List.Forall2

/-!
# Members that a program does not mention

A program looks up the keys it mentions and no others. So everything it does can be said of
the document that is left when all other members are deleted: paths lead to what is left of
their ends, arrays have what is left of their items, and rules show what is left of their
values. Two documents of which the same is left give tables of one shape, which may only
differ within the printed arrays and objects.
-/

namespace JsonTable

open Bytes

namespace Document

mutual

/-- What is left of a value if all members with other keys are deleted, at any depth. -/
def restrict (keys : List Bytes) : Document → Document
  | .array items => .array (restrictItems keys items)
  | .object members => .object (restrictMembers keys members)
  | .invalid => .invalid
  | .null => .null
  | .bool value => .bool value
  | .number text => .number text
  | .string text => .string text

def restrictItems (keys : List Bytes) : List Document → List Document
  | [] => []
  | item :: items => item.restrict keys :: restrictItems keys items

def restrictMembers (keys : List Bytes) : List (Bytes × Document) → List (Bytes × Document)
  | [] => []
  | (key, value) :: members =>
      if key ∈ keys then (key, value.restrict keys) :: restrictMembers keys members
      else restrictMembers keys members

end

def text? (d : Document) : Option Bytes :=
  d.cellText.toOption

end Document

def Step.keys : Step → List Bytes
  | .member key => [key]
  | .element key matchKey _ => [key, matchKey]

def Path.keys (path : Path) : List Bytes :=
  path.flatMap Step.keys

def Rule.keys (rule : Rule) : List Bytes :=
  rule.path.keys ++ [rule.key]

def LineItem.keys (item : LineItem) : List Bytes :=
  item.path.keys ++ item.key :: item.rules.flatMap Rule.keys

def Program.mentioned (program : Program) : List Bytes :=
  program.root.flatMap Rule.keys ++ program.chain.flatMap LineItem.keys
    ++ program.tail.flatMap Rule.keys

def Evaluation.value? (evaluation : Evaluation) : Option Document :=
  match evaluation.rule.path.descend evaluation.context with
  | .error _ => none
  | .ok landing => (landing.lookup evaluation.rule.key).filter fun value => value.text?.isSome

def Program.values (program : Program) (document : Document) : List (List (Option Document)) :=
  (program.evaluations document).map (List.map Evaluation.value?)

def Options.cell (options : Options) (value? : Option Document) : Bytes :=
  (value?.bind Document.text?).getD options.nullText

/-- Two cells have gaps or show the same value, but for what is printed of arrays and objects. -/
inductive Agree : Option Document → Option Document → Prop where
  | gaps : Agree none none
  | same (value : Document) : Agree (some value) (some value)
  | arrays (items others : List Document) : Agree (some (.array items)) (some (.array others))
  | objects (members others : List (Bytes × Document)) :
      Agree (some (.object members)) (some (.object others))

/-! ## What is left of a value -/

namespace Document

variable {keys : List Bytes}

@[simp]
theorem restrictItems_eq_map (items : List Document) :
    restrictItems keys items = items.map (restrict keys) := by
  induction items with
  | nil => rfl
  | cons item items ih => rw [restrictItems, ih, List.map_cons]

@[simp]
theorem kind_restrict (d : Document) : (d.restrict keys).kind = d.kind := by
  cases d <;> rfl

@[simp]
theorem isSome_text?_restrict (d : Document) : (d.restrict keys).text?.isSome = d.text?.isSome := by
  cases d <;> rfl

theorem restrict_eq_string_iff {d : Document} {text : Bytes} :
    d.restrict keys = .string text ↔ d = .string text := by
  cases d <;> simp [restrict]

theorem lookup_restrictMembers {key : Bytes} (hkey : key ∈ keys)
    (members : List (Bytes × Document)) :
    (restrictMembers keys members).lookup key = (members.lookup key).map (restrict keys) := by
  induction members with
  | nil => rfl
  | cons member members ih =>
      obtain ⟨other, value⟩ := member
      rw [restrictMembers, List.lookup_cons]
      by_cases hsame : key = other
      · subst hsame
        simp [hkey]
      · have hne : (key == other) = false := beq_eq_false_iff_ne.mpr hsame
        split <;> simp [List.lookup_cons, hne, ih]

theorem lookup_restrict {key : Bytes} (hkey : key ∈ keys) (d : Document) :
    (d.restrict keys).lookup key = (d.lookup key).map (restrict keys) := by
  cases d with
  | object members => exact lookup_restrictMembers hkey members
  | _ => rfl

end Document

open Document

/-! ## Where paths lead -/

section Restrict

variable {keys : List Bytes}

theorem Step.findItem_restrict {matchKey : Bytes} (hkey : matchKey ∈ keys) (matchValue : Bytes)
    (items : List Document) :
    findItem matchKey matchValue (items.map (restrict keys)) =
      (findItem matchKey matchValue items).map (restrict keys) := by
  induction items with
  | nil => rfl
  | cons item items ih =>
      have hmatch : (item.restrict keys).lookup matchKey = some (.string matchValue) ↔
          item.lookup matchKey = some (.string matchValue) := by
        rw [lookup_restrict hkey, Option.map_eq_some_iff]
        simp [restrict_eq_string_iff]
      rw [List.map_cons, findItem, findItem, ih]
      simp only [kind_restrict, hmatch]
      split
      · rfl
      · split <;> rfl

theorem Step.walk_restrict {step : Step} (hkeys : step.keys ⊆ keys) (d : Document) :
    step.walk (d.restrict keys) = (step.walk d).map (restrict keys) := by
  have hkey : step.key ∈ keys := hkeys (by cases step <;> simp [Step.key, Step.keys])
  rw [walk, walk, kind_restrict, lookup_restrict hkey]
  split
  · rfl
  · cases d.lookup step.key with
    | none => rfl
    | some next =>
        cases step with
        | member key => cases next <;> simp [restrict, Except.map]
        | element key matchKey matchValue =>
            have hmatch : matchKey ∈ keys := hkeys (by simp [Step.keys])
            cases next with
            | array items => simpa [restrict] using findItem_restrict hmatch matchValue items
            | _ => rfl

theorem Path.descend_restrict {path : Path} (hkeys : path.keys ⊆ keys) (d : Document) :
    path.descend (d.restrict keys) = (path.descend d).map (restrict keys) := by
  induction path generalizing d with
  | nil => rfl
  | cons step path ih =>
      obtain ⟨hstep, hpath⟩ := List.append_subset.mp hkeys
      rw [descend, descend, Step.walk_restrict hstep]
      cases step.walk d with
      | error obstacle => rfl
      | ok next =>
          simp only [Except.map, ih hpath]
          cases descend path next <;> rfl

/-! ## What line items and rules find -/

theorem LineItem.array_restrict {item : LineItem} (hkeys : item.keys ⊆ keys) (d : Document) :
    item.array (d.restrict keys) = (item.array d).map (restrict keys) := by
  obtain ⟨hpath, hrest⟩ := List.append_subset.mp hkeys
  have hkey : item.key ∈ keys := hrest List.mem_cons_self
  rw [array, array, Path.descend_restrict hpath]
  cases item.path.descend d with
  | error reason => rfl
  | ok landing =>
      simp only [Except.map, lookup_restrict hkey]
      cases landing.lookup item.key with
      | none => rfl
      | some value => cases value <;> simp [restrict]

theorem Evaluation.value?_restrict {rule : Rule} (hkeys : rule.keys ⊆ keys) (d : Document) :
    (⟨rule, d.restrict keys⟩ : Evaluation).value? =
      (⟨rule, d⟩ : Evaluation).value?.map (restrict keys) := by
  obtain ⟨hpath, hrest⟩ := List.append_subset.mp hkeys
  have hkey : rule.key ∈ keys := hrest List.mem_cons_self
  rw [value?, value?, Path.descend_restrict hpath]
  cases rule.path.descend d with
  | error reason => rfl
  | ok landing =>
      simp only [Except.map, lookup_restrict hkey]
      cases landing.lookup rule.key with
      | none => rfl
      | some value => by_cases h : value.text?.isSome <;> simp [Option.filter, h]

theorem values_evaluations_restrict {rules : List Rule} (hkeys : rules.flatMap Rule.keys ⊆ keys)
    (d : Document) :
    (evaluations rules (d.restrict keys)).map Evaluation.value? =
      (evaluations rules d).map fun e => e.value?.map (restrict keys) := by
  simp only [evaluations, List.map_map]
  refine List.map_congr_left fun rule hrule => ?_
  exact Evaluation.value?_restrict (fun key hkey => hkeys (List.mem_flatMap_of_mem hrule hkey)) d

theorem values_chainEvaluations_restrict {chain : List LineItem}
    (hkeys : chain.flatMap LineItem.keys ⊆ keys) (d : Document) :
    (chainEvaluations chain (d.restrict keys)).map (List.map Evaluation.value?) =
      (chainEvaluations chain d).map (List.map fun e => e.value?.map (restrict keys)) := by
  induction chain generalizing d with
  | nil => rfl
  | cons item below ih =>
      obtain ⟨hitem, hbelow⟩ := List.append_subset.mp hkeys
      obtain ⟨_, hrules⟩ := List.append_subset.mp hitem
      obtain ⟨hpre, hpost⟩ : item.pre.flatMap Rule.keys ⊆ keys ∧
          item.post.flatMap Rule.keys ⊆ keys := by
        rw [LineItem.rules, List.flatMap_append, List.cons_subset] at hrules
        exact List.append_subset.mp hrules.2
      rw [map_chainEvaluations_cons, map_chainEvaluations_cons, LineItem.array_restrict hitem]
      simp only [List.flatMap_map, ih hbelow, values_evaluations_restrict hpre,
        values_evaluations_restrict hpost]

end Restrict

/-- The table of what is left of a document shows what is left of the values. -/
theorem Program.values_restrict (program : Program) (d : Document) :
    program.values (d.restrict program.mentioned) =
      (program.values d).map (List.map (Option.map (restrict program.mentioned))) := by
  obtain ⟨hbefore, htail⟩ := List.append_subset.mp (List.Subset.refl program.mentioned)
  obtain ⟨hroot, hchain⟩ := List.append_subset.mp hbefore
  have hshow : (program.values d).map (List.map (Option.map (restrict program.mentioned))) =
      (program.evaluations d).map
        (List.map fun e => e.value?.map (restrict program.mentioned)) := by
    simp [values, Function.comp_def]
  rw [hshow, values, map_evaluations, map_evaluations, values_chainEvaluations_restrict hchain,
    values_evaluations_restrict hroot, values_evaluations_restrict htail]

/-! ## Cells that agree -/

theorem agree_of_map_restrict_eq {keys : List Bytes} {value? other? : Option Document}
    (h : value?.map (restrict keys) = other?.map (restrict keys)) : Agree value? other? := by
  cases value? with
  | none =>
      cases other? with
      | none => exact .gaps
      | some other => cases h
  | some value =>
      cases other? with
      | none => cases h
      | some other =>
          -- What is left of a value is of its kind, and is the value if that has no members.
          have hleft := Option.some.inj h
          cases value <;> cases other <;>
            simp_all [restrict, Agree.arrays, Agree.objects, Agree.same]

theorem forall₂_of_map_eq {α β : Type} {f : α → β} {R : α → α → Prop}
    (hR : ∀ a b, f a = f b → R a b) {as bs : List α} (h : as.map f = bs.map f) :
    List.Forall₂ R as bs := by
  rw [← List.forall₂_eq_eq_eq, List.forall₂_map_left_iff, List.forall₂_map_right_iff] at h
  exact h.imp hR

theorem map_length_eq {α β : Type} {R : α → β → Prop} {table : List (List α)}
    {other : List (List β)} (h : List.Forall₂ (List.Forall₂ R) table other) :
    table.map List.length = other.map List.length := by
  rw [← List.forall₂_eq_eq_eq, List.forall₂_map_left_iff, List.forall₂_map_right_iff]
  exact h.imp fun _ _ hrow => hrow.length_eq

/-! ## What the cells show -/

theorem Evaluation.shown?_eq_bind (evaluation : Evaluation) :
    evaluation.shown? = evaluation.value?.bind Document.text? := by
  rw [shown?, value?, Rule.cell, Rule.value]
  cases evaluation.rule.path.descend evaluation.context with
  | error reason => rfl
  | ok landing =>
      cases hvalue : landing.lookup evaluation.rule.key with
      | none => simp [hvalue, Except.map, Except.toOption]
      | some value =>
          by_cases htext : value.HasText <;>
            simp [hvalue, htext, Document.cellText, Document.text?, Option.filter, Except.map,
              Except.toOption]

theorem Evaluation.value?_eq_none_iff (evaluation : Evaluation) :
    evaluation.value? = none ↔ evaluation.Lacks := by
  rw [← evaluation.shown?_eq_none_iff, shown?_eq_bind]
  cases hvalue : evaluation.value? with
  | none => simp
  | some value =>
      rw [value?] at hvalue
      split at hvalue
      · cases hvalue
      · have htext := (Option.filter_eq_some_iff.mp hvalue).2
        simpa [Option.isSome_iff_ne_none] using htext

theorem Program.value_extract_eq_cells (program : Program) (d : Document) :
    (program.extract d).value = (program.values d).map (List.map program.options.cell) := by
  rw [value_extract_eq_map, values, List.map_map]
  simp [Function.comp_def, Evaluation.text_eq_getD, Evaluation.shown?_eq_bind, Options.cell]

/--
Documents of which the same is left without the members that are not mentioned give
tables with as many rows of as many cells, where each cell has a gap in both or shows the
same value in both, unless what it shows is an array in both or an object in both.
-/
theorem unmentioned_members_leave_cells (program : Program) {a b : Document}
    (h : a.restrict program.mentioned = b.restrict program.mentioned) :
    (program.extract a).value.map List.length = (program.extract b).value.map List.length ∧
    List.Forall₂ (List.Forall₂ Agree) (program.values a) (program.values b) ∧
    (∀ document, (program.extract document).value =
      (program.values document).map (List.map program.options.cell)) ∧
    ∀ evaluation : Evaluation, evaluation.value? = none ↔ evaluation.Lacks := by
  have hleft : (program.values a).map (List.map (Option.map (restrict program.mentioned))) =
      (program.values b).map (List.map (Option.map (restrict program.mentioned))) := by
    rw [← program.values_restrict, ← program.values_restrict, h]
  have hrow (row other : List (Option Document))
      (hsame : row.map (Option.map (restrict program.mentioned)) =
        other.map (Option.map (restrict program.mentioned))) : List.Forall₂ Agree row other :=
    forall₂_of_map_eq (fun _ _ => agree_of_map_restrict_eq) hsame
  have hagree : List.Forall₂ (List.Forall₂ Agree) (program.values a) (program.values b) :=
    forall₂_of_map_eq hrow hleft
  refine ⟨?_, hagree, program.value_extract_eq_cells, Evaluation.value?_eq_none_iff⟩
  have hlengths := map_length_eq hagree
  simpa [program.value_extract_eq_cells, Function.comp_def] using hlengths

/--
Other members beside the matched one, beside the array and beside the printed object, and
inside of the printed object, whose text alone differs.
-/
theorem unmentioned_members_leave_cells_beside_object :
    let program : Program := ⟨[], {}, [⟨[.element (ascii "l") (ascii "n") (ascii "c")], ascii "v"⟩],
      [⟨[], ascii "a", [⟨[], ascii "p"⟩, ⟨[], ascii "v"⟩], []⟩], []⟩
    let a : Document := .object [
      (ascii "a", .array [.object [(ascii "p", .object [(ascii "q", .bool true)])]]),
      (ascii "l", .array [.object [(ascii "n", .string (ascii "c")), (ascii "v", .bool false)]])]
    let b : Document := .object [
      (ascii "a", .array [.object [(ascii "o", .null), (ascii "p", .object [])]]),
      (ascii "k", .array []),
      (ascii "l", .array [.object [(ascii "m", .object []), (ascii "n", .string (ascii "c")),
        (ascii "v", .bool false)]])]
    a.restrict program.mentioned = b.restrict program.mentioned ∧
      (program.extract a).value = [[ascii "false", ascii "\x7b\"q\":true\x7d", []]] ∧
      (program.extract b).value = [[ascii "false", ascii "\x7b\x7d", []]] ∧
      List.Forall₂ (List.Forall₂ Agree) (program.values a) (program.values b) := by
  intro program a b
  have hleft : a.restrict program.mentioned = b.restrict program.mentioned := by decide
  exact ⟨hleft, by decide, by decide, (unmentioned_members_leave_cells program hleft).2.1⟩

end JsonTable
