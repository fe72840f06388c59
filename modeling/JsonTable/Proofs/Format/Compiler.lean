import JsonTable.Proofs.Format.Cursor

/-!
# Compilers and drafts

A compiler keeps line items in the chain from when they are opened, and remembers where the next
printed key goes, whether a line item was closed and how many keys were printed. A draft has all
of this from its line items, those open and those closed. The two stay in step through all
operations, so that a compiler gives the program that the draft of the text gives.
-/

namespace JsonTable.Format

open Bytes

/-- The line items that are open, by where they stand in the chain. -/
def OpenItem.entries : List OpenItem → List OpenLineItem
  | [] => []
  | item :: items => ⟨items.length, item.outer, item.position⟩ :: entries items

/-- The open line items as they stand in the chain, outermost first. -/
def OpenItem.chain : List OpenItem → List LineItem
  | [] => []
  | item :: items => chain items ++ [item.close]

theorem OpenItem.length_chain (items : List OpenItem) : (chain items).length = items.length := by
  induction items with
  | nil => rfl
  | cons item items ih => rw [chain, List.length_append, ih, List.length_singleton, List.length_cons]

theorem OpenItem.chain_cons_append (item : OpenItem) (items : List OpenItem)
    (closed : List LineItem) :
    chain (item :: items) ++ closed = chain items ++ item.close :: closed := by
  rw [chain, List.append_assoc, List.singleton_append]

def Draft.target (draft : Draft) : Target :=
  match draft.items with
  | [] => if draft.anyClosed then .tail else .root
  | _ :: items => if draft.anyClosed then .post items.length else .pre items.length

namespace Compiler

/-- The compiler is where the draft is. Everything that is open was opened within the text. -/
structure Follows (size : Nat) (compiler : Compiler) (draft : Draft) : Prop where
  context : compiler.context = draft.levels
  openItems : compiler.openItems = OpenItem.entries draft.items
  root : compiler.root = draft.root
  tail : compiler.tail = draft.tail
  chain : compiler.chain = OpenItem.chain draft.items ++ draft.closed
  target : compiler.target = draft.target
  closed : compiler.closedLineItem = draft.anyClosed
  printed : compiler.printedCount = compiler.root.length
    + (compiler.chain.flatMap LineItem.rules).length + compiler.tail.length
  levels_within : ∀ level ∈ draft.levels, level.position ≤ size
  items_within : ∀ item ∈ draft.items, item.position ≤ size ∧
    ∀ level ∈ item.outer, level.position ≤ size

theorem follows_nothing (size : Nat) : Follows size {} {} :=
  ⟨rfl, rfl, rfl, rfl, rfl, rfl, rfl, rfl, List.forall_mem_nil _, List.forall_mem_nil _⟩

variable {size : Nat} {compiler : Compiler} {draft : Draft}

/-! ## Changes of the state -/

section Changes

theorem Follows.move (h : Follows size compiler draft) (position : Nat) :
    Follows size { compiler with position } draft :=
  ⟨h.context, h.openItems, h.root, h.tail, h.chain, h.target, h.closed, h.printed,
    h.levels_within, h.items_within⟩

theorem Follows.descend (h : Follows size compiler draft) (step : Step) {position : Nat}
    (hposition : position ≤ size) (next : Nat) :
    Follows size
      { compiler with position := next, context := ⟨step, position⟩ :: compiler.context }
      { draft with levels := ⟨step, position⟩ :: draft.levels } where
  context := congrArg (⟨step, position⟩ :: ·) h.context
  openItems := h.openItems
  root := h.root
  tail := h.tail
  chain := h.chain
  target := h.target
  closed := h.closed
  printed := h.printed
  levels_within := List.forall_mem_cons.mpr ⟨hposition, h.levels_within⟩
  items_within := h.items_within

theorem Follows.closed_eq_nil (h : draft.anyClosed = false) : draft.closed = [] := by
  rwa [Draft.anyClosed, Bool.not_eq_false', List.isEmpty_iff] at h

/-- As long as none was closed, all line items of the chain are open, and the last is the innermost. -/
theorem Follows.addLineItem (h : Follows size compiler draft) (hclosed : draft.anyClosed = false)
    (item : LineItem) : compiler.addLineItem item = .ok (compiler.chain ++ [item]) := by
  have hchain := h.chain
  rw [closed_eq_nil hclosed, List.append_nil] at hchain
  rw [Compiler.addLineItem, h.openItems, hchain]
  cases draft.items with
  | nil => rfl
  | cons outer items =>
      have hlength : (OpenItem.chain (outer :: items)).length = items.length + 1 :=
        OpenItem.length_chain (outer :: items)
      dsimp only [OpenItem.entries]
      rw [List.take_of_length_le (Nat.le_of_eq hlength)]

theorem Follows.openItem (h : Follows size compiler draft) (hclosed : draft.anyClosed = false)
    {key : Bytes} {position : Nat} (hposition : position ≤ size) (next : Nat) {index : Nat}
    (hindex : index = compiler.chain.length) :
    Follows size
      { compiler with
        position := next
        context := []
        openItems := ⟨index, compiler.context, position⟩ :: compiler.openItems
        chain := compiler.chain ++ [⟨pathOf compiler.context, key, [], []⟩]
        target := .pre index }
      { draft with
        levels := [], items := ⟨key, draft.levels, [], [], position⟩ :: draft.items } := by
  have hnone := closed_eq_nil hclosed
  have hlength : index = draft.items.length := by
    rw [hindex, h.chain, hnone, List.append_nil, OpenItem.length_chain]
  constructor
  case context => rfl
  case openItems => rw [OpenItem.entries, hlength, h.context, h.openItems]
  case root => exact h.root
  case tail => exact h.tail
  case chain =>
    rw [h.chain, hnone, h.context, List.append_nil, List.append_nil, OpenItem.chain,
      OpenItem.close]
  case target =>
    rw [Draft.target, Draft.anyClosed, hnone, hlength]
    rfl
  case closed => exact h.closed
  case printed =>
    rw [List.flatMap_append, List.length_append, List.flatMap_singleton, LineItem.rules]
    exact h.printed
  case levels_within => exact List.forall_mem_nil _
  case items_within =>
    exact List.forall_mem_cons.mpr ⟨⟨hposition, h.levels_within⟩, h.items_within⟩

theorem Follows.closeLevel (h : Follows size compiler draft) {level : Level} {levels : List Level}
    (hlevels : draft.levels = level :: levels) (next : Nat) :
    Follows size { compiler with position := next, context := levels } { draft with levels } where
  context := rfl
  openItems := h.openItems
  root := h.root
  tail := h.tail
  chain := h.chain
  target := h.target
  closed := h.closed
  printed := h.printed
  levels_within other hother :=
    h.levels_within other (hlevels ▸ List.mem_cons_of_mem level hother)
  items_within := h.items_within

theorem Follows.closeItem (h : Follows size compiler draft) {item : OpenItem}
    {items : List OpenItem} (hitems : draft.items = item :: items) (next : Nat) :
    Follows size
      { compiler with
        position := next
        context := item.outer
        openItems := OpenItem.entries items
        target := (OpenItem.entries items).head?.elim .tail fun outer => .post outer.index
        closedLineItem := true }
      { draft with levels := item.outer, items, closed := item.close :: draft.closed } := by
  have hwithin := List.forall_mem_cons.mp (hitems ▸ h.items_within)
  constructor
  case context => rfl
  case openItems => rfl
  case root => exact h.root
  case tail => exact h.tail
  case chain => rw [h.chain, hitems, OpenItem.chain_cons_append]
  case target =>
    cases items with
    | nil => rfl
    | cons outer items => rfl
  case closed => rfl
  case printed => exact h.printed
  case levels_within => exact hwithin.1.2
  case items_within => exact hwithin.2

theorem LineItem.length_rules_pre (item : LineItem) (rule : Rule) :
    (LineItem.rules { item with pre := item.pre ++ [rule] }).length = item.rules.length + 1 := by
  simp only [LineItem.rules, List.length_append, List.length_singleton]
  omega

theorem LineItem.length_rules_post (item : LineItem) (rule : Rule) :
    (LineItem.rules { item with post := item.post ++ [rule] }).length = item.rules.length + 1 := by
  simp only [LineItem.rules, List.length_append, List.length_singleton]
  omega

theorem modify_middle {α : Type} (before after : List α) (x : α) (f : α → α) :
    (before ++ x :: after).modify before.length f = before ++ f x :: after :=
  List.modifyTailIdx_add (List.modifyHead f) 0 before (x :: after)

theorem length_rules_middle (before after : List LineItem) {item changed : LineItem}
    (h : changed.rules.length = item.rules.length + 1) :
    ((before ++ changed :: after).flatMap LineItem.rules).length =
      ((before ++ item :: after).flatMap LineItem.rules).length + 1 := by
  simp only [List.flatMap_append, List.flatMap_cons, List.length_append, h]
  omega

/-- A rule that goes to the innermost open line item is added where that stands in the chain. -/
theorem Follows.changeItem (h : Follows size compiler draft) {item : OpenItem}
    {items : List OpenItem} (hitems : draft.items = item :: items) {f : LineItem → LineItem}
    (changed : OpenItem)
    (hf : f item.close = changed.close) (houter : changed.outer = item.outer)
    (hposition : changed.position = item.position)
    (hrules : changed.close.rules.length = item.close.rules.length + 1) (next : Nat) :
    Follows size
      { compiler with
        position := next
        chain := compiler.chain.modify items.length f
        printedCount := compiler.printedCount + 1 }
      { draft with items := changed :: items } := by
  have hwithin := List.forall_mem_cons.mp (hitems ▸ h.items_within)
  have hchain : compiler.chain = OpenItem.chain items ++ item.close :: draft.closed := by
    rw [h.chain, hitems, OpenItem.chain_cons_append]
  have hmodified : compiler.chain.modify items.length f =
      OpenItem.chain items ++ changed.close :: draft.closed := by
    rw [hchain, ← OpenItem.length_chain items, modify_middle, hf]
  constructor
  case context => exact h.context
  case openItems =>
    rw [h.openItems, hitems, OpenItem.entries, OpenItem.entries, houter, hposition]
  case root => exact h.root
  case tail => exact h.tail
  case chain =>
    rw [hmodified, OpenItem.chain_cons_append]
  case target =>
    rw [h.target, Draft.target, Draft.target, hitems]
    rfl
  case closed => exact h.closed
  case printed =>
    have hcount := length_rules_middle (OpenItem.chain items) draft.closed hrules
    rw [← hchain, ← hmodified] at hcount
    dsimp only
    rw [hcount, h.printed]
    omega
  case levels_within => exact h.levels_within
  case items_within =>
    refine List.forall_mem_cons.mpr ⟨?_, hwithin.2⟩
    rw [houter, hposition]
    exact hwithin.1

theorem Follows.addRoot (h : Follows size compiler draft) (rule : Rule) (next : Nat) :
    Follows size
      { compiler with
        position := next
        root := compiler.root ++ [rule]
        printedCount := compiler.printedCount + 1 }
      { draft with root := draft.root ++ [rule] } where
  context := h.context
  openItems := h.openItems
  root := congrArg (· ++ [rule]) h.root
  tail := h.tail
  chain := h.chain
  target := h.target
  closed := h.closed
  printed := by
    dsimp only
    rw [List.length_append, List.length_singleton, h.printed]
    omega
  levels_within := h.levels_within
  items_within := h.items_within

theorem Follows.addTail (h : Follows size compiler draft) (rule : Rule) (next : Nat) :
    Follows size
      { compiler with
        position := next
        tail := compiler.tail ++ [rule]
        printedCount := compiler.printedCount + 1 }
      { draft with tail := draft.tail ++ [rule] } where
  context := h.context
  openItems := h.openItems
  root := h.root
  tail := congrArg (· ++ [rule]) h.tail
  chain := h.chain
  target := h.target
  closed := h.closed
  printed := by
    dsimp only
    rw [List.length_append, List.length_singleton, h.printed]
    omega
  levels_within := h.levels_within
  items_within := h.items_within

theorem Follows.addRule (h : Follows size compiler draft) (rule : Rule) (next : Nat) :
    Follows size
      { compiler.addRule rule with
        position := next, printedCount := (compiler.addRule rule).printedCount + 1 }
      (draft.addRule rule) := by
  have htarget := h.target
  rw [Draft.target] at htarget
  cases hitems : draft.items with
  | nil =>
      rw [hitems] at htarget
      cases hclosed : draft.anyClosed with
      | false =>
          have hadd : compiler.addRule rule = { compiler with root := compiler.root ++ [rule] } := by
            rw [Compiler.addRule, htarget, hclosed]
            rfl
          have hdraft : draft.addRule rule = { draft with root := draft.root ++ [rule] } := by
            rw [Draft.addRule, hitems, hclosed]
          rw [hadd, hdraft]
          exact h.addRoot rule next
      | true =>
          have hadd : compiler.addRule rule = { compiler with tail := compiler.tail ++ [rule] } := by
            rw [Compiler.addRule, htarget, hclosed]
            rfl
          have hdraft : draft.addRule rule = { draft with tail := draft.tail ++ [rule] } := by
            rw [Draft.addRule, hitems, hclosed]
          rw [hadd, hdraft]
          exact h.addTail rule next
  | cons item items =>
      rw [hitems] at htarget
      cases hclosed : draft.anyClosed with
      | false =>
          have hadd : compiler.addRule rule = { compiler with
              chain := compiler.chain.modify items.length fun item =>
                { item with pre := item.pre ++ [rule] } } := by
            rw [Compiler.addRule, htarget, hclosed]
            rfl
          rw [hadd, Draft.addRule, hitems, hclosed]
          exact h.changeItem hitems { item with pre := item.pre ++ [rule] } rfl rfl rfl
            (LineItem.length_rules_pre item.close rule) next
      | true =>
          have hadd : compiler.addRule rule = { compiler with
              chain := compiler.chain.modify items.length fun item =>
                { item with post := item.post ++ [rule] } } := by
            rw [Compiler.addRule, htarget, hclosed]
            rfl
          rw [hadd, Draft.addRule, hitems, hclosed]
          exact h.changeItem hitems { item with post := item.post ++ [rule] } rfl rfl rfl
            (LineItem.length_rules_post item.close rule) next

end Changes

/-! ## Operations -/

structure Continues (source : Source) (compiler : Compiler) (next : Draft × Bytes) : Prop where
  follows : Follows source.size compiler next.1
  at_next : source.At 0 compiler.position next.2

section Steps

variable {source : Source} {compiler : Compiler} {draft : Draft} {b : UInt8} {rest : Bytes}

/-- What a draft does for an operation that was read with `rest` left after its first byte. -/
def applied (size : Nat) (draft : Draft) (rest : Bytes) (read : Operation × Bytes) :
    Reading (Draft × Bytes) := do
  let draft ← draft.apply (size - (rest.length + 1)) (rest.length + 1) read.1
  return (draft, read.2)

theorem draftFrom_succ (size rounds : Nat) (draft : Draft) {text : Bytes}
    (h : skipBlanks text = b :: rest) :
    draftFrom size (rounds + 1) draft text =
      (readOperation draft.anyClosed b rest >>= applied size draft rest) >>= fun next =>
        draftFrom size rounds next.1 next.2 := by
  rw [draftFrom, h]
  simp only [applied, bind_assoc, pure_bind]

theorem start_of_at (h : source.At 0 compiler.position (b :: rest)) :
    source.size - (rest.length + 1) = compiler.position := by
  rw [h.size_eq, List.length_cons, Nat.add_sub_cancel]

theorem descendMember_agree (h : Follows source.size compiler draft)
    (hat : source.At 0 compiler.position (b :: rest)) :
    source.Agree 0 Cause.message (Continues source) (descendMember source compiler)
      (readMemberStep rest >>= applied source.size draft rest) := by
  rw [descendMember, readMemberStep, bind_assoc]
  refine (Cursor.readKey_agree .memberKey hat.tail).bind ?_
  rintro ⟨key, next⟩ ⟨_, rest'⟩ ⟨rfl, hnext⟩
  dsimp only
  rw [bind_assoc]
  refine (Cursor.readOpen_agree .member key hnext).bind ?_
  intro next rest' hnext
  rw [pure_bind, applied, start_of_at hat]
  exact ⟨h.descend _ (Nat.le_of_lt hat.lt_size) next, hnext⟩

theorem descendElement_agree (h : Follows source.size compiler draft)
    (hat : source.At 0 compiler.position (b :: rest)) :
    source.Agree 0 Cause.message (Continues source) (descendElement source compiler)
      (readElementStep rest >>= applied source.size draft rest) := by
  have hdescend (step : Step) := h.descend step (Nat.le_of_lt hat.lt_size)
  rw [descendElement, readElementStep, bind_assoc]
  refine (Cursor.readKey_agree .arrayKey hat.tail).bind ?_
  rintro ⟨key, next⟩ ⟨_, rest'⟩ ⟨rfl, hnext⟩
  dsimp only
  rw [bind_assoc]
  refine (Cursor.readOpen_agree .array key hnext).bind ?_
  intro next rest' hnext
  rw [bind_assoc]
  refine (Cursor.readKey_agree .matchKey hnext).bind ?_
  rintro ⟨matchKey, next⟩ ⟨_, rest'⟩ ⟨rfl, hnext⟩
  obtain ⟨solid, hsolid, hnext⟩ := Cursor.nextToken_at hnext
  dsimp only
  rw [Cursor.nextToken_bind hsolid, hnext.holds_byte]
  cases hequals : after? [Byte.equals] (skipBlanks rest') with
  | none => exact agree_fault hnext _ rfl
  | some rest' =>
      have hvalue := (hnext.hasAt_of_after? hequals).2
      dsimp only
      rw [Option.isSome_some, if_pos rfl, bind_assoc]
      refine (Cursor.readKey_agree .matchValue hvalue).bind ?_
      rintro ⟨matchValue, next⟩ ⟨_, rest'⟩ ⟨rfl, hnext⟩
      obtain ⟨solid, hsolid, hnext⟩ := Cursor.nextToken_at hnext
      dsimp only
      rw [Cursor.nextToken_bind hsolid, hnext.holds_byte, pure_bind, applied, start_of_at hat]
      -- A bracket may be left out after the value.
      cases hopen : after? [Byte.openBracket] (skipBlanks rest') with
      | none => exact ⟨hdescend _ _, hnext⟩
      | some rest' => exact ⟨hdescend _ _, (hnext.hasAt_of_after? hopen).2⟩

theorem openLineItem_agree (h : Follows source.size compiler draft)
    (hat : source.At 0 compiler.position (b :: rest)) :
    source.Agree 0 Cause.message (Continues source) (openLineItem source compiler)
      (readLineItem draft.anyClosed (b :: rest) >>= applied source.size draft rest) := by
  rw [openLineItem, readLineItem, bind_assoc]
  refine ((Cursor.readKey_agree .lineItemKey hat.tail.from_here).widen (Nat.zero_le _)).bind ?_
  rintro ⟨key, next⟩ ⟨_, rest'⟩ ⟨⟨rfl, hnext⟩, hposition⟩
  dsimp only
  by_cases hclosed : draft.anyClosed = true
  · have hsize : compiler.position + (b :: rest).length = next + rest'.length :=
      hat.size_eq.symm.trans hnext.size_eq
    rw [if_pos (h.closed.trans hclosed), if_pos hclosed]
    refine agree_fault hat _ ?_
    dsimp only at hposition
    omega
  · have hnone : draft.anyClosed = false := Bool.eq_false_iff.mpr hclosed
    rw [if_neg (h.closed ▸ hclosed), if_neg hclosed, bind_assoc]
    refine (Cursor.readOpen_agree .lineItem key hnext).bind ?_
    intro next rest' hnext
    rw [pure_bind, applied, Draft.apply, if_neg hclosed, start_of_at hat, h.addLineItem hnone]
    have hlast : (compiler.chain ++ [LineItem.mk (pathOf compiler.context) key [] []]).length - 1 =
        compiler.chain.length := by
      rw [List.length_append, List.length_singleton, Nat.add_sub_cancel]
    exact ⟨h.openItem hnone (Nat.le_of_lt hat.lt_size) next hlast, hnext⟩

theorem close_agree (h : Follows source.size compiler draft)
    (hat : source.At 0 compiler.position (b :: rest)) :
    source.Agree 0 Cause.message (Continues source) compiler.close
      (applied source.size draft rest (.close, rest)) := by
  rw [Compiler.close, applied, Draft.apply, Draft.close?, h.context]
  cases hlevels : draft.levels with
  | cons level levels => exact ⟨h.closeLevel hlevels _, hat.tail⟩
  | nil =>
      rw [h.openItems]
      cases hitems : draft.items with
      | nil => exact agree_fault hat _ rfl
      | cons item items => exact ⟨h.closeItem hitems _, hat.tail⟩

theorem print_agree (h : Follows source.size compiler draft)
    (hat : source.At 0 compiler.position (b :: rest)) :
    source.Agree 0 Cause.message (Continues source) (print source compiler)
      (readKey .printedKey (b :: rest) >>= fun (key, after) =>
        applied source.size draft rest (.print key, after)) := by
  rw [print]
  refine (Cursor.readKey_agree .printedKey hat).bind ?_
  rintro ⟨key, next⟩ ⟨_, rest'⟩ ⟨rfl, hnext⟩
  dsimp only
  rw [applied, Draft.apply, ← h.context]
  exact ⟨h.addRule _ next, hnext⟩

theorem step_agree (h : Follows source.size compiler draft)
    (hat : source.At 0 compiler.position (b :: rest)) :
    source.Agree 0 Cause.message (Continues source) (step source compiler)
      (readOperation draft.anyClosed b rest >>= applied source.size draft rest) := by
  rw [step, hat.byte_bind, readOperation]
  by_cases hdot : b = Byte.dot
  · rw [if_pos hdot, if_pos hdot]
    exact descendMember_agree h hat
  rw [if_neg hdot, if_neg hdot]
  by_cases hslash : b = Byte.slash
  · rw [if_pos hslash, if_pos hslash]
    exact descendElement_agree h hat
  rw [if_neg hslash, if_neg hslash]
  by_cases hplus : b = Byte.plus
  · rw [if_pos hplus, if_pos hplus]
    exact openLineItem_agree h hat
  rw [if_neg hplus, if_neg hplus]
  by_cases hclose : b = Byte.closeBracket
  · rw [if_pos hclose, if_pos hclose]
    exact close_agree h hat
  rw [if_neg hclose, if_neg hclose]
  by_cases hquote : b = Byte.quote
  · rw [if_pos hquote, if_pos hquote, bind_assoc]
    exact print_agree h hat
  · rw [if_neg hquote, if_neg hquote, hat.text]
    exact agree_fault_of_message hat _ rfl (Cursor.unknownByte_window b (b :: rest))

theorem steps_agree (rounds : Nat) (h : Follows source.size compiler draft)
    (hat : source.At 0 compiler.position rest) :
    source.Agree 0 Cause.message (Follows source.size) (steps source rounds compiler)
      (draftFrom source.size rounds draft rest) := by
  induction rounds generalizing compiler draft rest with
  | zero => exact h
  | succ rounds ih =>
      obtain ⟨next, hnext, hsolid⟩ := Cursor.nextToken_at hat
      rw [steps, Cursor.nextToken_bind hnext]
      cases hleft : skipBlanks rest with
      | nil =>
          rw [hleft] at hsolid
          rw [draftFrom, hleft, if_neg hsolid.not_lt_size]
          exact h.move next
      | cons b rest =>
          rw [hleft] at hsolid
          rw [draftFrom_succ _ _ _ hleft, if_pos hsolid.lt_size]
          refine (step_agree (h.move next) hsolid).bind ?_
          rintro compiler ⟨draft, after⟩ ⟨hfollows, hnext⟩
          exact ih hfollows hnext

/-! ## Whole texts -/

theorem open_keys (items : List OpenItem) (closed : List LineItem) :
    ((OpenItem.entries items).filterMap fun item =>
        (OpenItem.chain items ++ closed)[item.index]?.map LineItem.key) =
      items.map OpenItem.key := by
  induction items generalizing closed with
  | nil => rfl
  | cons item items ih =>
      have hitem : (OpenItem.chain items ++ item.close :: closed)[items.length]? =
          some item.close := by
        rw [← OpenItem.length_chain items, List.getElem?_append_right (Nat.le_refl _),
          Nat.sub_self, List.getElem?_cons_zero]
      rw [OpenItem.chain_cons_append, OpenItem.entries, List.filterMap_cons, hitem, ih]
      rfl

theorem checkAllClosed_agree (h : Follows source.size compiler draft) :
    source.Agree 0 Cause.message (fun _ _ => draft.items = []) (compiler.checkAllClosed source)
      (draft.checkClosed source.size) := by
  rw [checkAllClosed, Draft.checkClosed, h.context]
  cases hlevels : draft.levels with
  | cons level levels =>
      have hend := Nat.add_sub_cancel' (h.levels_within level (hlevels ▸ List.mem_cons_self))
      refine ⟨Nat.zero_le _, hend, hend.symm, ?_⟩
      rw [h.openItems]
      cases draft.items with
      | nil => rfl
      | cons item items => rfl
  | nil =>
      rw [h.openItems, h.chain]
      cases hitems : draft.items with
      | nil => exact rfl
      | cons item items =>
          have hend := Nat.add_sub_cancel' (h.items_within item (hitems ▸ List.mem_cons_self)).1
          have hkeys := open_keys (item :: items) draft.closed
          refine ⟨Nat.zero_le _, hend, hend.symm, ?_⟩
          rw [List.filterMap_reverse, List.map_reverse, hkeys]

theorem finish_agree (source : Source) :
    source.Agree 0 Cause.message
      (fun compiler draft => Follows source.size compiler draft ∧ draft.items = [])
      (finish source) (draftOf source.bytes) := by
  rw [finish, draftOf, ← source.size_eq]
  refine (steps_agree _ (follows_nothing source.size)
    (source.at_start (Nat.zero_le source.size))).bind ?_
  intro compiler draft h
  refine (checkAllClosed_agree h).bind ?_
  intro _ _ hitems
  exact ⟨h, hitems⟩

end Steps

theorem Follows.printedCount_eq (h : Follows size compiler draft) (hitems : draft.items = [])
    (format : Bytes) (options : Options) :
    compiler.printedCount = (draft.toProgram format options).columnCount := by
  rw [Program.columnCount, Program.rules, List.length_append, List.length_append, h.printed,
    h.root, h.tail, h.chain, hitems]
  rfl

end Compiler

end JsonTable.Format

namespace JsonTable

open Format

/-- Compiling gives the program of the draft that the whole text gives. -/
theorem Program.compile_eq (report : Report) (options : Options) :
    Program.compile report options = do
      let (draft?, settled) ←
        report.settle 0 Cause.message (draftOf report.source.bytes)
      match draft? with
      | none => return (none, settled)
      | some draft =>
          let program := draft.toProgram report.source.bytes options
          if program.columnCount = 0 then
            return (some program, ← settled.warning 0 report.source.size noFieldsWarning)
          else return (some program, settled) := by
  have hagree := Compiler.finish_agree report.source
  rcases hagree.outcomes with
    ⟨compiler, draft, ⟨hfollows, hitems⟩, hhere, hleft⟩ | ⟨refused, hhere, hleft⟩
  · have hcount := hfollows.printedCount_eq hitems report.source.bytes options
    have hslice : report.source.slice 0 report.source.size = .ok report.source.bytes := by
      rw [Source.slice, if_pos (Nat.zero_le _), List.drop_zero, Source.size_eq, List.take_length]
    have hprogram : (⟨report.source.bytes, options, compiler.root, compiler.chain, compiler.tail⟩ :
        Program) = draft.toProgram report.source.bytes options := by
      rw [Draft.toProgram, hfollows.root, hfollows.tail, hfollows.chain, hitems]
      rfl
    simp only [compile, hhere, hleft, hcount, hslice, bind, Except.bind]
    rw [hprogram]
    split
    · rfl
    · rfl
  · rw [compile, hhere, hleft]
    cases refused with
    | error cause => rfl
    | ok recorded => rfl

end JsonTable
