import Mathlib.Tactic.Tauto
import JsonTable.Proofs.Format.Nesting

/-!
# Drafts and forests

The operations of a forest are carried out on a draft one after the other, and
the draft keeps what is open on two stacks. `perform_iff` says what comes of it,
whatever is open around the forest: the draft absorbs the content of the forest,
which succeeds exactly if its line items are on one path and none is opened after
one was closed. `completes_of_perform` finds the closings in any script that
leaves nothing open.
-/

namespace JsonTable.Format

/-! ## Contents -/

/-- Without a line item nothing stands after one. -/
def Content.Plain (c : Content) : Prop :=
  c.chain = [] → c.after = []

namespace Content

variable {a b : Content}

theorem append_of_nil (h : a.chain = []) :
    a.append b = ⟨a.before ++ b.before, b.chain, b.after⟩ := by
  simp [append, h]

theorem append_of_ne_nil (h : a.chain ≠ []) :
    a.append b = ⟨a.before, a.chain ++ b.chain, a.after ++ b.before ++ b.after⟩ := by
  unfold append
  split
  · contradiction
  · rfl

theorem append_chain : (a.append b).chain = a.chain ++ b.chain := by
  by_cases h : a.chain = []
  · simp [append_of_nil h, h]
  · simp [append_of_ne_nil h]

theorem Plain.append (hb : b.Plain) : (a.append b).Plain := by
  intro h
  rw [append_chain, List.append_eq_nil_iff] at h
  rw [append_of_nil h.1]
  exact hb h.2

end Content

mutual

theorem Node.content_plain : (node : Node) → (path : Path) → (node.content path).Plain
  | .print _, _ => fun _ => rfl
  | .step step nodes, path => content_plain nodes (path ++ [step])
  | .item _ _, _ => fun h => by simp [Node.content] at h

theorem content_plain : (nodes : List Node) → (path : Path) → (content path nodes).Plain
  | [], _ => fun _ => rfl
  | _ :: nodes, path => (content_plain nodes path).append

end

mutual

theorem Node.content_chain_eq_nil_iff :
    (node : Node) → {path : Path} → ((node.content path).chain = [] ↔ node.itemAddresses = [])
  | .print key, path => by simp [Node.content, Node.itemAddresses]
  | .step _ nodes, _ => content_chain_eq_nil_iff nodes
  | .item key nodes, path => by simp [Node.content, Node.itemAddresses]

theorem content_chain_eq_nil_iff :
    (nodes : List Node) → {path : Path} → {first : Nat} →
      ((content path nodes).chain = [] ↔ itemAddresses first nodes = [])
  | [], path, first => by simp [content, itemAddresses]
  | node :: nodes, path, first => by
      rw [content, itemAddresses, Content.append_chain, List.append_eq_nil_iff,
        List.append_eq_nil_iff, List.map_eq_nil_iff, node.content_chain_eq_nil_iff,
        content_chain_eq_nil_iff nodes]

end

/-! ## Absorbing a content -/

namespace Draft

def addRules (draft : Draft) (rules : List Rule) : Draft :=
  match draft.items, draft.anyClosed with
  | [], false => { draft with root := draft.root ++ rules }
  | [], true => { draft with tail := draft.tail ++ rules }
  | item :: items, false =>
      { draft with items := { item with pre := item.pre ++ rules } :: items }
  | item :: items, true =>
      { draft with items := { item with post := item.post ++ rules } :: items }

/-- Takes over what a forest adds, at the place that the draft has got to. -/
def absorb (draft : Draft) (c : Content) : Draft :=
  let opened := draft.addRules c.before
  { opened with closed := c.chain ++ opened.closed }.addRules c.after

variable {draft : Draft} {rules more : List Rule} {a b c : Content}

theorem addRule_eq_addRules (rule : Rule) : draft.addRule rule = draft.addRules [rule] :=
  rfl

@[simp]
theorem addRules_levels : (draft.addRules rules).levels = draft.levels := by
  unfold addRules
  split <;> rfl

@[simp]
theorem addRules_closed : (draft.addRules rules).closed = draft.closed := by
  unfold addRules
  split <;> rfl

@[simp]
theorem addRules_nil : draft.addRules [] = draft := by
  obtain ⟨_, items, closed, _, _⟩ := draft
  cases items <;> cases closed <;> simp [addRules, anyClosed]

theorem addRules_append :
    draft.addRules (rules ++ more) = (draft.addRules rules).addRules more := by
  obtain ⟨_, items, closed, _, _⟩ := draft
  cases items <;> cases closed <;> simp [addRules, anyClosed]

theorem addRules_withLevels (levels : List Level) :
    { draft with levels }.addRules rules = { draft.addRules rules with levels } := by
  obtain ⟨_, items, closed, _, _⟩ := draft
  cases items <;> cases closed <;> rfl

@[simp]
theorem absorb_levels : (draft.absorb c).levels = draft.levels := by
  simp [absorb]

@[simp]
theorem absorb_closed : (draft.absorb c).closed = c.chain ++ draft.closed := by
  simp [absorb]

theorem absorb_withLevels (levels : List Level) :
    { draft with levels }.absorb c = { draft.absorb c with levels } := by
  have hbefore : { draft with levels }.addRules c.before =
      { draft.addRules c.before with levels } := addRules_withLevels levels
  rw [absorb, hbefore]
  exact @addRules_withLevels
    { draft.addRules c.before with closed := c.chain ++ (draft.addRules c.before).closed }
    c.after levels

theorem absorb_empty : draft.absorb ⟨[], [], []⟩ = draft := by
  simp [absorb]

theorem absorb_of_nil (hplain : c.Plain) (h : c.chain = []) :
    draft.absorb c = draft.addRules c.before := by
  rw [absorb, h, hplain h, List.nil_append, addRules_nil]

/-- Contents side by side are absorbed one after the other. -/
theorem absorb_append (ha : a.Plain) (hb : b.Plain) (h : a.chain = [] ∨ b.chain = []) :
    draft.absorb (a.append b) = (draft.absorb a).absorb b := by
  by_cases hchain : a.chain = []
  · rw [Content.append_of_nil hchain, absorb_of_nil ha hchain]
    simp [absorb, addRules_append]
  · have hnil : b.chain = [] := h.resolve_left hchain
    rw [Content.append_of_ne_nil hchain, absorb_of_nil hb hnil]
    simp [absorb, hnil, hb hnil, addRules_append]

/-! ## Where rules end up -/

theorem addRules_root (hclosed : draft.closed = []) :
    { draft with items := [] }.addRules rules =
      { draft with items := [], root := draft.root ++ rules } := by
  simp [addRules, anyClosed, hclosed]

theorem addRules_tail (hclosed : draft.closed ≠ []) :
    { draft with items := [] }.addRules rules =
      { draft with items := [], tail := draft.tail ++ rules } := by
  have hany : anyClosed { draft with items := [] } = true := by simpa [anyClosed] using hclosed
  simp [addRules, hany]

theorem addRules_pre {item : OpenItem} {items : List OpenItem} (hclosed : draft.closed = []) :
    { draft with items := item :: items }.addRules rules =
      { draft with items := { item with pre := item.pre ++ rules } :: items } := by
  simp [addRules, anyClosed, hclosed]

theorem addRules_post {item : OpenItem} {items : List OpenItem} (hclosed : draft.closed ≠ []) :
    { draft with items := item :: items }.addRules rules =
      { draft with items := { item with post := item.post ++ rules } :: items } := by
  have hany : anyClosed { draft with items := item :: items } = true := by
    simpa [anyClosed] using hclosed
  simp [addRules, hany]

theorem absorb_start (hplain : c.Plain) :
    ({} : Draft).absorb c = { closed := c.chain, root := c.before, tail := c.after } := by
  have hbefore : ({} : Draft).addRules c.before = { root := c.before } :=
    @addRules_root {} c.before rfl
  by_cases hchain : c.chain = []
  · rw [absorb_of_nil hplain hchain, hbefore, hchain, hplain hchain]
  · rw [absorb, hbefore, List.append_nil]
    exact @addRules_tail { closed := c.chain, root := c.before } c.after hchain

theorem absorb_openItem {key : Bytes} {outer : List Level} {items : List OpenItem}
    {position : Nat} (hplain : c.Plain) (hclosed : draft.closed = []) :
    { draft with items := ⟨key, outer, [], [], position⟩ :: items }.absorb c =
      { draft with items := ⟨key, outer, c.before, c.after, position⟩ :: items,
                   closed := c.chain } := by
  by_cases hchain : c.chain = []
  · rw [absorb_of_nil hplain hchain, addRules_pre hclosed, hplain hchain, hchain, ← hclosed]
    rfl
  · rw [absorb, addRules_pre hclosed, hclosed, List.append_nil]
    exact @addRules_post { draft with closed := c.chain } c.after _ items hchain

end Draft

/-! ## Carrying out a forest -/

theorem pathOf_cons (level : Level) (levels : List Level) :
    pathOf (level :: levels) = pathOf levels ++ [level.step] := by
  simp [pathOf]

theorem perform_single {size left : Nat} {draft draft' : Draft} {operation : Operation} :
    draft.perform size [(left, operation)] = .ok draft' ↔
      draft.apply (size - left) left operation = .ok draft' := by
  simp [Draft.perform, except_bind_eq_ok]

theorem apply_close_iff {position left : Nat} {draft draft' : Draft} :
    draft.apply position left .close = .ok draft' ↔ draft.close? = some draft' := by
  simp only [Draft.apply]
  cases draft.close? with
  | none => simp
  | some next => simp

/-- A script for operations between an opening and a closing. -/
theorem script_bracketed {script : Script} {operation : Operation} {inner : List Operation}
    (h : script.map Prod.snd = operation :: inner ++ [.close]) :
    ∃ first middle last, script = (first, operation) :: middle ++ [(last, .close)] ∧
      middle.map Prod.snd = inner := by
  rw [List.cons_append, List.map_eq_cons_iff] at h
  obtain ⟨⟨first, _⟩, rest, rfl, rfl, h⟩ := h
  obtain ⟨middle, ends, rfl, hmiddle, hends⟩ := List.map_eq_append_iff.mp h
  obtain ⟨⟨last, _⟩, others, rfl, rfl, hnil⟩ := List.map_eq_cons_iff.mp hends
  obtain rfl := List.map_eq_nil_iff.mp hnil
  exact ⟨first, middle, last, rfl, hmiddle⟩

theorem perform_bracketed {size first last : Nat} {draft draft' : Draft} {operation : Operation}
    {middle : Script} :
    draft.perform size ((first, operation) :: middle ++ [(last, .close)]) = .ok draft' ↔
      ∃ opened, draft.apply (size - first) first operation = .ok opened ∧
        ∃ done, opened.perform size middle = .ok done ∧ done.close? = some draft' := by
  simp only [List.cons_append, Draft.perform, except_bind_eq_ok, perform_append,
    apply_close_iff, Except.ok.injEq, exists_eq_right]

theorem close_level (draft : Draft) (level : Level) (levels : List Level) :
    { draft with levels := level :: levels }.close? = some { draft with levels } :=
  rfl

theorem absorb_level {draft : Draft} {level : Level} {c : Content} :
    ({ draft with levels := level :: draft.levels }.absorb c).close? = some (draft.absorb c) := by
  rw [Draft.absorb_withLevels, close_level, ← Draft.absorb_withLevels]

theorem absorb_item {draft : Draft} {key : Bytes} {position : Nat} {c : Content}
    (hplain : c.Plain) (hclosed : draft.closed = []) :
    ({ draft with levels := [],
                  items := ⟨key, draft.levels, [], [], position⟩ :: draft.items }.absorb c).close? =
      some (draft.absorb ⟨[], ⟨pathOf draft.levels, key, c.before, c.after⟩ :: c.chain, []⟩) := by
  have hopen := @Draft.absorb_openItem { draft with levels := [] } c key draft.levels draft.items
    position hplain hclosed
  rw [hopen]
  simp [Draft.close?, OpenItem.close, Draft.absorb, hclosed]

mutual

theorem Node.perform_iff :
    (node : Node) → {size : Nat} → {draft draft' : Draft} → {script : Script} →
      script.map Prod.snd = node.operations →
      (draft.perform size script = .ok draft' ↔
        (Linear node.itemAddresses ∧ (draft.closed = [] ∨ node.itemAddresses = [])) ∧
          draft' = draft.absorb (node.content (pathOf draft.levels)))
  | .print key, size, draft, draft', script, hscript => by
      obtain ⟨⟨left, _⟩, others, rfl, rfl, hnil⟩ := List.map_eq_cons_iff.mp hscript
      obtain rfl := List.map_eq_nil_iff.mp hnil
      rw [perform_single, Draft.apply, Node.itemAddresses, Node.content, Except.ok.injEq,
        Draft.absorb_of_nil (fun _ => rfl) rfl, Draft.addRule_eq_addRules]
      exact ⟨fun h => ⟨⟨linear_nil, Or.inr rfl⟩, h.symm⟩, fun h => h.2.symm⟩
  | .step step nodes, size, draft, draft', script, hscript => by
      obtain ⟨first, middle, last, rfl, hmiddle⟩ := script_bracketed hscript
      rw [perform_bracketed, Node.itemAddresses, Node.content]
      constructor
      · rintro ⟨_, happly, done, hdone, hclose⟩
        cases happly
        obtain ⟨hadmitted, rfl⟩ := (perform_iff nodes hmiddle 0).mp hdone
        rw [pathOf_cons, absorb_level, Option.some.injEq] at hclose
        exact ⟨hadmitted, hclose.symm⟩
      · rintro ⟨hadmitted, rfl⟩
        refine ⟨_, rfl, _, (perform_iff nodes hmiddle 0).mpr ⟨hadmitted, rfl⟩, ?_⟩
        rw [pathOf_cons, absorb_level]
  | .item key nodes, size, draft, draft', script, hscript => by
      obtain ⟨first, middle, last, rfl, hmiddle⟩ := script_bracketed hscript
      rw [perform_bracketed, Node.itemAddresses, Node.content, linear_root_cons]
      have hplain := content_plain nodes []
      -- Once a line item is closed no other is opened, whatever is inside of it.
      by_cases hclosed : draft.closed = []
      · have happly (position left : Nat) : draft.apply position left (.openItem key) =
            .ok { draft with levels := [],
                             items := ⟨key, draft.levels, [], [], position⟩ :: draft.items } := by
          simp [Draft.apply, Draft.anyClosed, hclosed]
        constructor
        · rintro ⟨_, hopened, done, hdone, hclose⟩
          rw [happly] at hopened
          cases hopened
          obtain ⟨hadmitted, rfl⟩ := (perform_iff nodes hmiddle 0).mp hdone
          rw [show pathOf [] = [] from rfl, absorb_item hplain hclosed, Option.some.injEq] at hclose
          exact ⟨⟨hadmitted.1, Or.inl hclosed⟩, hclose.symm⟩
        · rintro ⟨hadmitted, rfl⟩
          refine ⟨_, happly _ _, _,
            (perform_iff nodes hmiddle 0).mpr ⟨⟨hadmitted.1, Or.inl hclosed⟩, rfl⟩, ?_⟩
          exact absorb_item hplain hclosed
      · refine iff_of_false ?_ ?_
        · rintro ⟨opened, happly, _⟩
          simp [Draft.apply, Draft.anyClosed, hclosed] at happly
        · rintro ⟨⟨_, h | h⟩, _⟩
          · exact hclosed h
          · cases h

/-- What the operations of a forest do to a draft, whatever they stand within. -/
theorem perform_iff :
    (nodes : List Node) → {size : Nat} → {draft draft' : Draft} → {script : Script} →
      script.map Prod.snd = operations nodes → (first : Nat) →
      (draft.perform size script = .ok draft' ↔
        (Linear (itemAddresses first nodes) ∧
          (draft.closed = [] ∨ itemAddresses first nodes = [])) ∧
          draft' = draft.absorb (content (pathOf draft.levels) nodes))
  | [], size, draft, draft', script, hscript, first => by
      obtain rfl := List.map_eq_nil_iff.mp hscript
      rw [Draft.perform, itemAddresses, content, Except.ok.injEq, Draft.absorb_empty]
      exact ⟨fun h => ⟨⟨linear_nil, Or.inr rfl⟩, h.symm⟩, fun h => h.2.symm⟩
  | node :: nodes, size, draft, draft', script, hscript, first => by
      obtain ⟨script, more, rfl, hscript, hmore⟩ := List.map_eq_append_iff.mp hscript
      have hnode : (node.content (pathOf draft.levels)).chain = [] ↔ node.itemAddresses = [] :=
        node.content_chain_eq_nil_iff
      have hrest : (content (pathOf draft.levels) nodes).chain = [] ↔
          itemAddresses (first + 1) nodes = [] := content_chain_eq_nil_iff nodes
      have happend (hone : node.itemAddresses = [] ∨ itemAddresses (first + 1) nodes = []) :
          draft.absorb (content (pathOf draft.levels) (node :: nodes)) =
            (draft.absorb (node.content (pathOf draft.levels))).absorb
              (content (pathOf draft.levels) nodes) :=
        Draft.absorb_append (node.content_plain _) (content_plain nodes _) (by rwa [hnode, hrest])
      -- What the first node closes is what the second must not open another line item after.
      rw [perform_append, linear_itemAddresses_cons, itemAddresses, List.append_eq_nil_iff,
        List.map_eq_nil_iff]
      constructor
      · rintro ⟨_, hfirst, hsecond⟩
        obtain ⟨⟨hlinear, hopen⟩, rfl⟩ := (node.perform_iff hscript).mp hfirst
        obtain ⟨⟨hlinears, hopens⟩, rfl⟩ := (perform_iff nodes hmore (first + 1)).mp hsecond
        rw [Draft.absorb_closed, List.append_eq_nil_iff, hnode] at hopens
        have hone : node.itemAddresses = [] ∨ itemAddresses (first + 1) nodes = [] := by tauto
        rw [Draft.absorb_levels, happend hone]
        exact ⟨⟨⟨hlinear, hlinears, hone⟩, by tauto⟩, rfl⟩
      · rintro ⟨⟨⟨hlinear, hlinears, hone⟩, hopen⟩, rfl⟩
        refine ⟨_, (node.perform_iff hscript).mpr ⟨⟨hlinear, by tauto⟩, rfl⟩,
          (perform_iff nodes hmore (first + 1)).mpr ⟨⟨hlinears, ?_⟩, ?_⟩⟩
        · rw [Draft.absorb_closed, List.append_eq_nil_iff, hnode]
          tauto
        · rw [Draft.absorb_levels, happend hone]

end

/-! ## Scripts that leave nothing open -/

namespace Draft

def openCount (draft : Draft) : Nat :=
  draft.items.length + (draft.levels ++ draft.items.flatMap OpenItem.outer).length

theorem openCount_eq_zero_iff {draft : Draft} :
    draft.openCount = 0 ↔ draft.levels = [] ∧ draft.items = [] := by
  unfold openCount
  cases draft.items with
  | nil => simp
  | cons item items => simp [Nat.add_eq_zero_iff]

theorem openCount_addRules (draft : Draft) (rules : List Rule) :
    (draft.addRules rules).openCount = draft.openCount := by
  obtain ⟨_, items, closed, _, _⟩ := draft
  cases items <;> cases closed <;> rfl

theorem openCount_close {draft draft' : Draft} (h : draft.close? = some draft') :
    draft.openCount = draft'.openCount + 1 := by
  obtain ⟨levels, items, _, _, _⟩ := draft
  cases levels with
  | cons level levels =>
      cases h
      simp only [openCount, List.cons_append, List.length_cons]
      omega
  | nil =>
      cases items with
      | nil => cases h
      | cons item items =>
          cases h
          simp only [openCount, List.nil_append, List.length_cons, List.flatMap_cons]
          omega

end Draft

theorem completes_of_apply {draft next : Draft} {position left : Nat} {operation : Operation}
    {rest : List Operation} (happly : draft.apply position left operation = .ok next)
    (h : Completes next.openCount rest) : Completes draft.openCount (operation :: rest) := by
  cases operation with
  | print key =>
      cases happly
      rw [Draft.addRule_eq_addRules, Draft.openCount_addRules] at h
      exact h.cons (.print key)
  | descend step =>
      cases happly
      refine Completes.open (.step step) (fun nodes => rfl) ?_
      simpa [Draft.openCount, Nat.add_assoc] using h
  | openItem key =>
      cases hclosed : draft.anyClosed with
      | true => simp [Draft.apply, hclosed] at happly
      | false =>
          simp only [Draft.apply, hclosed, Bool.false_eq_true, if_false, Except.ok.injEq] at happly
          subst happly
          refine Completes.open (.item key) (fun nodes => rfl) ?_
          simpa [Draft.openCount, Nat.add_right_comm] using h
  | close =>
      rw [Draft.openCount_close (apply_close_iff.mp happly)]
      exact .close [] h

/-- What leaves nothing open closes exactly what was open, with forests in between. -/
theorem completes_of_perform {size : Nat} {draft draft' : Draft} {script : Script}
    (h : draft.perform size script = .ok draft') (hdone : draft'.openCount = 0) :
    Completes draft.openCount (script.map Prod.snd) := by
  induction script generalizing draft with
  | nil =>
      cases h
      rw [hdone]
      exact .all []
  | cons entry script ih =>
      obtain ⟨next, happly, hrest⟩ := except_bind_eq_ok.mp h
      exact completes_of_apply happly (ih hrest)

end JsonTable.Format
