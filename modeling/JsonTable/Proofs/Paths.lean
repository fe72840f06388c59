import JsonTable.Proofs.Comprehension

/-!
# Where paths lead

What a step, a path and a rule find in a document is said here without searching: a step
leads from an object to one of its parts, a path leads along its steps, and a rule shows
what a key names at the end of its path. A step that leads nowhere has an `Obstacle`, and
`Obstructed` says which. The walks are compared with these relations: for each function
one lemma says when it gives a result, and another when and how it fails.
-/

namespace JsonTable

open Bytes

/--
The key names the value in the object. Where the keys are distinct this is the member with
the key; of several members it is the first.
-/
inductive Document.Names : Document → Bytes → Document → Prop where
  | member {before after : Keyed Document} {key : Bytes} {value : Document} :
      key ∉ before.map Prod.fst → Names (.object (before ++ (key, value) :: after)) key value

/-- An object that a search for a matching item goes past. -/
structure Document.PassedOver (matchKey matchValue : Bytes) (d : Document) : Prop where
  object : d.kind = .object
  unmatched : ¬ d.Names matchKey (.string matchValue)

namespace Step

/-- A step leads to a member that is an object, or to the first matching item after objects. -/
inductive Leads : Step → Document → Document → Prop where
  | member {key : Bytes} {d next : Document} : d.Names key next → next.kind = .object →
      Leads (.member key) d next
  | element {key matchKey matchValue : Bytes} {d next : Document} {before after : List Document} :
      d.Names key (.array (before ++ next :: after)) →
      (∀ item ∈ before, item.PassedOver matchKey matchValue) →
      next.Names matchKey (.string matchValue) →
      Leads (.element key matchKey matchValue) d next

inductive Obstructed : Step → Document → Obstacle → Prop where
  | notAnObject {step : Step} {d : Document} : d.kind ≠ .object →
      Obstructed step d (.notAnObject d.kind)
  | missing {step : Step} {d : Document} : d.kind = .object →
      (∀ value, ¬ d.Names step.key value) → Obstructed step d .missing
  | memberNotAnObject {key : Bytes} {d value : Document} : d.Names key value →
      value.kind ≠ .object → Obstructed (.member key) d .memberNotAnObject
  | memberNotAnArray {key matchKey matchValue : Bytes} {d value : Document} : d.Names key value →
      value.kind ≠ .array → Obstructed (.element key matchKey matchValue) d .memberNotAnArray
  | itemNotAnObject {key matchKey matchValue : Bytes} {d item : Document}
      {before after : List Document} :
      d.Names key (.array (before ++ item :: after)) →
      (∀ other ∈ before, other.PassedOver matchKey matchValue) → item.kind ≠ .object →
      Obstructed (.element key matchKey matchValue) d .itemNotAnObject
  | noMatch {key matchKey matchValue : Bytes} {d : Document} {items : List Document} :
      d.Names key (.array items) →
      (∀ item ∈ items, item.PassedOver matchKey matchValue) →
      Obstructed (.element key matchKey matchValue) d (.noMatch matchKey matchValue)

end Step

namespace Path

inductive Leads : Path → Document → Document → Prop where
  | nil {d : Document} : Leads [] d d
  | cons {step : Step} {path : Path} {d next landing : Document} : step.Leads d next →
      Leads path next landing → Leads (step :: path) d landing

/-- A path ends early before the first step that is obstructed, whatever comes after it. -/
inductive EndsEarly : Path → Document → Blocked → Prop where
  | before {walked rest : Path} {step : Step} {obstacle : Obstacle} {d reached : Document} :
      Leads walked d reached → step.Obstructed reached obstacle →
      EndsEarly (walked ++ step :: rest) d ⟨walked, step, obstacle⟩

end Path

/-- The value that the key of a rule names at the end of its path, if a cell can show it. -/
inductive Rule.Shows (rule : Rule) (context : Document) : Document → Prop where
  | landing {landing value : Document} : rule.path.Leads context landing →
      landing.Names rule.key value → value ≠ .null → value ≠ .invalid →
      rule.Shows context value

/-! ## Members -/

namespace Document

theorem lookup_eq_some_iff_names {d value : Document} {key : Bytes} :
    d.lookup key = some value ↔ d.Names key value := by
  constructor
  · intro h
    cases d with
    | object members =>
        obtain ⟨before, after, rfl, hbefore⟩ := List.lookup_eq_some_iff.mp h
        apply Names.member
        intro hkey
        obtain ⟨entry, hentry, heq⟩ := List.mem_map.mp hkey
        exact bne_iff_ne.mp (hbefore entry hentry) heq.symm
    | _ => cases h
  · intro h
    cases h with
    | @member before after _ _ hkey =>
        apply List.lookup_eq_some_iff.mpr
        refine ⟨before, after, rfl, fun entry hentry => bne_iff_ne.mpr fun heq => hkey ?_⟩
        exact List.mem_map.mpr ⟨entry, hentry, heq.symm⟩

theorem lookup_eq_none_iff_names {d : Document} {key : Bytes} :
    d.lookup key = none ↔ ∀ value, ¬ d.Names key value := by
  simp only [Option.eq_none_iff_forall_ne_some, ne_eq, lookup_eq_some_iff_names]

theorem Names.unique {d x y : Document} {key : Bytes} (hx : d.Names key x)
    (hy : d.Names key y) : x = y := by
  have hsome := (lookup_eq_some_iff_names.mpr hx).symm.trans (lookup_eq_some_iff_names.mpr hy)
  exact Option.some.inj hsome

theorem Names.kind_eq {d value : Document} {key : Bytes} (h : d.Names key value) :
    d.kind = .object := by
  cases h
  rfl

theorem kind_eq_array_iff {d : Document} : d.kind = .array ↔ ∃ items, d = .array items := by
  cases d <;> simp [kind]

end Document

open Document

/-! ## Steps -/

namespace Step

section Search

variable {matchKey matchValue : Bytes}

theorem findItem_of_passedOver {before : List Document}
    (h : ∀ item ∈ before, item.PassedOver matchKey matchValue) (rest : List Document) :
    findItem matchKey matchValue (before ++ rest) = findItem matchKey matchValue rest := by
  induction before with
  | nil => rfl
  | cons item before ih =>
      obtain ⟨hitem, hbefore⟩ := List.forall_mem_cons.mp h
      have hlookup : item.lookup matchKey ≠ some (.string matchValue) := fun hmatch =>
        hitem.unmatched (lookup_eq_some_iff_names.mp hmatch)
      rw [List.cons_append, findItem, if_neg (not_not_intro hitem.object), if_neg hlookup]
      exact ih hbefore

/-- A search stops at the first item that it does not go past, or at the end. -/
theorem all_passedOver_or_stop (items : List Document) :
    (∀ item ∈ items, item.PassedOver matchKey matchValue) ∨
      ∃ before item after, items = before ++ item :: after ∧
        (∀ other ∈ before, other.PassedOver matchKey matchValue) ∧
        (item.kind ≠ .object ∨ item.Names matchKey (.string matchValue)) := by
  induction items with
  | nil => exact Or.inl nofun
  | cons item items ih =>
      by_cases hkind : item.kind = .object
      · by_cases hmatch : item.Names matchKey (.string matchValue)
        · exact Or.inr ⟨[], item, items, rfl, nofun, Or.inr hmatch⟩
        · have hitem : item.PassedOver matchKey matchValue := ⟨hkind, hmatch⟩
          cases ih with
          | inl hall => exact Or.inl (List.forall_mem_cons.mpr ⟨hitem, hall⟩)
          | inr hstop =>
              obtain ⟨before, stop, after, rfl, hbefore, hstop⟩ := hstop
              exact Or.inr ⟨item :: before, stop, after, rfl,
                List.forall_mem_cons.mpr ⟨hitem, hbefore⟩, hstop⟩
      · exact Or.inr ⟨[], item, items, rfl, nofun, Or.inl hkind⟩

theorem findItem_of_kind_ne {item : Document} (h : item.kind ≠ .object) (after : List Document) :
    findItem matchKey matchValue (item :: after) = .error .itemNotAnObject := by
  rw [findItem, if_pos h]

theorem findItem_of_names {item : Document} (h : item.Names matchKey (.string matchValue))
    (after : List Document) : findItem matchKey matchValue (item :: after) = .ok item := by
  rw [findItem, if_neg (not_not_intro h.kind_eq), if_pos (lookup_eq_some_iff_names.mpr h)]

end Search

theorem leads_or_obstructed (step : Step) (d : Document) :
    (∃ next, step.Leads d next) ∨ ∃ obstacle, step.Obstructed d obstacle := by
  by_cases hkind : d.kind = .object
  · cases hvalue : d.lookup step.key with
    | none => exact Or.inr ⟨_, .missing hkind (lookup_eq_none_iff_names.mp hvalue)⟩
    | some value =>
        have hnames := lookup_eq_some_iff_names.mp hvalue
        cases step with
        | member key =>
            by_cases hobject : value.kind = .object
            · exact Or.inl ⟨_, .member hnames hobject⟩
            · exact Or.inr ⟨_, .memberNotAnObject hnames hobject⟩
        | element key matchKey matchValue =>
            by_cases harray : value.kind = .array
            · obtain ⟨items, rfl⟩ := kind_eq_array_iff.mp harray
              cases @all_passedOver_or_stop matchKey matchValue items with
              | inl hall => exact Or.inr ⟨_, .noMatch hnames hall⟩
              | inr hstop =>
                  obtain ⟨before, item, after, rfl, hbefore, hitem⟩ := hstop
                  cases hitem with
                  | inl hitem => exact Or.inr ⟨_, .itemNotAnObject hnames hbefore hitem⟩
                  | inr hitem => exact Or.inl ⟨_, .element hnames hbefore hitem⟩
            · exact Or.inr ⟨_, .memberNotAnArray hnames harray⟩
  · exact Or.inr ⟨_, .notAnObject hkind⟩

theorem walk_member {key : Bytes} {d value : Document} (h : d.Names key value) :
    (Step.member key).walk d =
      if value.kind = .object then .ok value else .error .memberNotAnObject := by
  have hlookup : d.lookup (Step.member key).key = some value := lookup_eq_some_iff_names.mpr h
  rw [walk, if_neg (not_not_intro h.kind_eq), hlookup]
  cases value <;> rfl

theorem walk_element {key matchKey matchValue : Bytes} {d : Document} {items : List Document}
    (h : d.Names key (.array items)) :
    (Step.element key matchKey matchValue).walk d = findItem matchKey matchValue items := by
  have hlookup : d.lookup (Step.element key matchKey matchValue).key = some (.array items) :=
    lookup_eq_some_iff_names.mpr h
  rw [walk, if_neg (not_not_intro h.kind_eq), hlookup]

theorem walk_element_of_kind_ne {key matchKey matchValue : Bytes} {d value : Document}
    (h : d.Names key value) (hkind : value.kind ≠ .array) :
    (Step.element key matchKey matchValue).walk d = .error .memberNotAnArray := by
  have hlookup : d.lookup (Step.element key matchKey matchValue).key = some value :=
    lookup_eq_some_iff_names.mpr h
  rw [walk, if_neg (not_not_intro h.kind_eq), hlookup]
  cases value with
  | array items => exact absurd rfl hkind
  | _ => rfl

theorem Leads.walk_eq {step : Step} {d next : Document} (h : step.Leads d next) :
    step.walk d = .ok next := by
  cases h with
  | member hnames hkind => rw [walk_member hnames, if_pos hkind]
  | element hnames hbefore hmatch =>
      rw [walk_element hnames, findItem_of_passedOver hbefore, findItem_of_names hmatch]

theorem Obstructed.walk_eq {step : Step} {d : Document} {obstacle : Obstacle}
    (h : step.Obstructed d obstacle) : step.walk d = .error obstacle := by
  cases h with
  | notAnObject hkind => exact if_pos hkind
  | missing hkind hnone =>
      rw [walk, if_neg (not_not_intro hkind), lookup_eq_none_iff_names.mpr hnone]
  | memberNotAnObject hnames hkind => rw [walk_member hnames, if_neg hkind]
  | memberNotAnArray hnames hkind => exact walk_element_of_kind_ne hnames hkind
  | itemNotAnObject hnames hbefore hitem =>
      rw [walk_element hnames, findItem_of_passedOver hbefore, findItem_of_kind_ne hitem]
  | noMatch hnames hall =>
      have hsearch := findItem_of_passedOver hall []
      rw [List.append_nil] at hsearch
      rw [walk_element hnames]
      exact hsearch

theorem walk_eq_ok_iff {step : Step} {d next : Document} :
    step.walk d = .ok next ↔ step.Leads d next := by
  constructor
  · intro h
    cases step.leads_or_obstructed d with
    | inl hleads =>
        obtain ⟨other, hother⟩ := hleads
        cases h.symm.trans hother.walk_eq
        exact hother
    | inr hobstructed =>
        obtain ⟨obstacle, hobstacle⟩ := hobstructed
        cases h.symm.trans hobstacle.walk_eq
  · exact Leads.walk_eq

theorem walk_eq_error_iff {step : Step} {d : Document} {obstacle : Obstacle} :
    step.walk d = .error obstacle ↔ step.Obstructed d obstacle := by
  constructor
  · intro h
    cases step.leads_or_obstructed d with
    | inl hleads =>
        obtain ⟨next, hnext⟩ := hleads
        cases h.symm.trans hnext.walk_eq
    | inr hobstructed =>
        obtain ⟨other, hother⟩ := hobstructed
        cases h.symm.trans hother.walk_eq
        exact hother
  · exact Obstructed.walk_eq

/-- Steps can always be chained. -/
theorem Leads.kind_eq {step : Step} {d next : Document} (h : step.Leads d next) :
    next.kind = .object := by
  cases h with
  | member _ hkind => exact hkind
  | element _ _ hmatch => exact hmatch.kind_eq

theorem Obstructed.not_leads {step : Step} {d next : Document} {obstacle : Obstacle}
    (h : step.Obstructed d obstacle) : ¬ step.Leads d next := by
  intro hleads
  cases h.walk_eq.symm.trans hleads.walk_eq

end Step

/-! ## Paths -/

namespace Path

variable {path : Path} {d landing : Document}

theorem descend_eq_ok_iff : path.descend d = .ok landing ↔ path.Leads d landing := by
  induction path generalizing d with
  | nil =>
      constructor
      · intro h
        cases h
        exact .nil
      · intro h
        cases h
        rfl
  | cons step path ih =>
      constructor
      · intro h
        unfold descend at h
        split at h
        · cases h
        · next next hwalk =>
            split at h
            · cases h
            · next hdescend =>
                cases h
                exact .cons (Step.walk_eq_ok_iff.mp hwalk) (ih.mp hdescend)
      · intro h
        cases h with
        | cons hstep hpath => simp only [descend, hstep.walk_eq, ih.mpr hpath]

theorem Leads.unique {x y : Document} (hx : path.Leads d x) (hy : path.Leads d y) : x = y := by
  have hok := (descend_eq_ok_iff.mpr hx).symm.trans (descend_eq_ok_iff.mpr hy)
  exact Except.ok.inj hok

/-- A path is stopped at a step that is obstructed, whatever follows it. -/
theorem Leads.descend_append {walked : Path} {step : Step} {obstacle : Obstacle}
    {reached : Document} (h : walked.Leads d reached) (hstep : step.Obstructed reached obstacle)
    (rest : Path) :
    (walked ++ step :: rest).descend d = .error ⟨walked, step, obstacle⟩ := by
  induction h with
  | nil => rw [List.nil_append, descend, hstep.walk_eq]
  | cons hfirst _ ih => simp only [List.cons_append, descend, hfirst.walk_eq, ih hstep]

theorem descend_eq_error_iff {blocked : Blocked} :
    path.descend d = .error blocked ↔ path.EndsEarly d blocked := by
  constructor
  · intro h
    induction path generalizing d blocked with
    | nil => cases h
    | cons step path ih =>
        unfold descend at h
        split at h
        · next obstacle hwalk =>
            cases h
            exact @EndsEarly.before [] path step _ _ _ .nil (Step.walk_eq_error_iff.mp hwalk)
        · next next hwalk =>
            split at h
            · next inner hinner =>
                cases h
                cases ih hinner with
                | before hwalked hobstructed =>
                    exact .before (.cons (Step.walk_eq_ok_iff.mp hwalk) hwalked) hobstructed
            · cases h
  · intro h
    cases h with
    | before hwalked hobstructed => exact hwalked.descend_append hobstructed _

theorem Leads.kind_eq (h : path.Leads d landing) (hpath : path ≠ []) :
    landing.kind = .object := by
  induction h with
  | nil => exact absurd rfl hpath
  | @cons step path d next landing hstep hrest ih =>
      cases path with
      | nil =>
          cases hrest
          exact hstep.kind_eq
      | cons following path => exact ih (List.cons_ne_nil _ _)

theorem EndsEarly.exists_reached {blocked : Blocked} (h : path.EndsEarly d blocked) :
    ∃ reached, Leads blocked.walked d reached ∧
      blocked.step.walk reached = .error blocked.obstacle ∧
      ∀ next, ¬ blocked.step.Leads reached next := by
  cases h with
  | before hwalked hobstructed =>
      exact ⟨_, hwalked, hobstructed.walk_eq, fun next => hobstructed.not_leads⟩

/-- Only what a path starts from need not be an object. -/
theorem EndsEarly.walked_eq_nil {blocked : Blocked} {found : Kind}
    (h : path.EndsEarly d blocked) (hobstacle : blocked.obstacle = .notAnObject found) :
    blocked.walked = [] := by
  cases h with
  | @before walked rest step obstacle _ reached hwalked hobstructed =>
      subst hobstacle
      by_cases hnil : walked = []
      · exact hnil
      · cases hobstructed with
        | notAnObject hkind => exact absurd (hwalked.kind_eq hnil) hkind

end Path

/-! ## Rules -/

namespace Rule

variable {rule : Rule} {context value : Document}

theorem Shows.cellText_eq (options : Options) (h : rule.Shows context value) :
    value.cellText = .ok (rule.evaluate options context).value := by
  cases h with
  | landing hpath hnames hnull hinvalid =>
      rw [value_evaluate, cell, Rule.value, Path.descend_eq_ok_iff.mpr hpath]
      simp only [lookup_eq_some_iff_names.mpr hnames]
      cases value with
      | null => exact absurd rfl hnull
      | invalid => exact absurd rfl hinvalid
      | _ => rfl

theorem evaluate_of_not_shows (options : Options) (h : ∀ value, ¬ rule.Shows context value) :
    (rule.evaluate options context).value = options.nullText := by
  rw [value_evaluate, cell, Rule.value]
  cases hpath : rule.path.descend context with
  | error reason => rfl
  | ok landing =>
      cases hvalue : landing.lookup rule.key with
      | none => simp only [hvalue, Except.map, Except.toOption, Option.getD_none]
      | some value =>
          have hshows := h value
          simp only [hvalue]
          by_cases hnull : value = .null
          · subst hnull
            rfl
          · by_cases hinvalid : value = .invalid
            · subst hinvalid
              rfl
            · exact absurd (.landing (Path.descend_eq_ok_iff.mp hpath)
                (lookup_eq_some_iff_names.mp hvalue) hnull hinvalid) hshows

end Rule

/--
A path leads from a value to where its steps lead, which is one place at most, and descending
finds it. Otherwise a first step is obstructed: descending tells the steps before it, all of
which lead on, that step, and what is in its way. That there is no object to begin with can
only stop the first step. A rule shows the value that its key names at the end of its path;
if there is none that a cell can show it shows the text for gaps, and it is never a misuse.
-/
theorem rules_show_where_paths_lead (options : Options) (rule : Rule) (d : Document) :
    (∀ landing, rule.path.descend d = .ok landing ↔ rule.path.Leads d landing) ∧
    (∀ x y, rule.path.Leads d x → rule.path.Leads d y → x = y) ∧
    (∀ blocked, rule.path.descend d = .error blocked ↔ rule.path.EndsEarly d blocked) ∧
    (∀ blocked, rule.path.EndsEarly d blocked →
      (∃ reached, Path.Leads blocked.walked d reached ∧
        blocked.step.walk reached = .error blocked.obstacle ∧
        ∀ next, ¬ blocked.step.Leads reached next) ∧
      blocked.message = blocked.step.failureMessage blocked.obstacle
        ++ ascii " after descending through: [" ++ Path.toBytes blocked.walked ++ ascii "]" ∧
      ∀ found, blocked.obstacle = .notAnObject found → blocked.walked = []) ∧
    (∀ value, rule.Shows d value →
      value.cellText = .ok (rule.evaluate options d).value) ∧
    ((∀ value, ¬ rule.Shows d value) → (rule.evaluate options d).value = options.nullText) ∧
    rule.text options d = .ok (rule.evaluate options d).value := by
  refine ⟨fun landing => Path.descend_eq_ok_iff, fun x y => Path.Leads.unique,
    fun blocked => Path.descend_eq_error_iff, fun blocked h => ?_,
    fun value h => h.cellText_eq options, Rule.evaluate_of_not_shows options,
    rule.text_eq_ok d⟩
  refine ⟨h.exists_reached, ?_, fun found => h.walked_eq_nil⟩
  simp only [Blocked.message, Path.afterwards, List.append_assoc]

/--
The first item of the array has no string to match, and the last one is no object but is not
looked at. The second path goes on to a member that is a string.
-/
theorem rules_show_where_paths_lead_past_unmatched_items :
    let d : Document := .object [(ascii "a", .array [.object [(ascii "k", .number (ascii "1"))],
      .object [(ascii "b", .object [(ascii "c", .string (ascii "x"))]),
        (ascii "k", .string (ascii "v"))], .null])]
    let step : Step := .element (ascii "a") (ascii "k") (ascii "v")
    Path.Leads [step, .member (ascii "b")] d (.object [(ascii "c", .string (ascii "x"))]) ∧
      (Rule.evaluate {} ⟨[step, .member (ascii "b")], ascii "c"⟩ d).value = ascii "x" ∧
      Path.EndsEarly [step, .member (ascii "k")] d
        ⟨[step], .member (ascii "k"), .memberNotAnObject⟩ := by
  intro d step
  obtain ⟨hleads, _⟩ := rules_show_where_paths_lead {} ⟨[step, .member (ascii "b")], ascii "c"⟩ d
  obtain ⟨_, _, hends, _⟩ :=
    rules_show_where_paths_lead {} ⟨[step, .member (ascii "k")], ascii "c"⟩ d
  exact ⟨(hleads _).mp rfl, rfl, (hends _).mp rfl⟩

end JsonTable
