import JsonTable.Proofs.Format.PathTexts
import JsonTable.Proofs.SelfDelimiting

/-!
# Dumps of compiled programs

A dump has a line for each rule and each line item. Keys may hold newlines and whole lines that
look like others, so lines are not found by their ends. But no key of a compiled program holds
a quote, and therefore each line tells where it ends, whatever comes after it. From the lines
the lists of a program are found by the labels alone.
-/

namespace JsonTable

open Bytes Format

/-! ## Paths -/

theorem Step.selfDelimiting : SelfDelimiting Step.Writable Step.toBytes := by
  intro a b ha hb rest rest' h
  cases a with
  | member key =>
      cases b with
      | member other =>
          simp only [toBytes, List.cons_append, List.append_assoc, List.cons.injEq,
            true_and] at h
          obtain ⟨rfl, hrest⟩ := selfDelimiting_inQuotes ha.2 hb.2 h
          exact ⟨rfl, (List.cons.inj hrest).2⟩
      | element => exact absurd (List.cons.inj h).1 (by decide)
  | element key matchKey matchValue =>
      cases b with
      | member => exact absurd (List.cons.inj h).1 (by decide)
      | element key' matchKey' matchValue' =>
          obtain ⟨hkey, hmatchKey, hmatchValue⟩ := ha
          obtain ⟨hkey', hmatchKey', hmatchValue'⟩ := hb
          simp only [toBytes, List.cons_append, List.append_assoc, List.cons.injEq,
            true_and] at h
          obtain ⟨rfl, hmatch⟩ := selfDelimiting_inQuotes hkey.2 hkey'.2 h
          rw [List.cons.injEq] at hmatch
          obtain ⟨rfl, hvalue⟩ := selfDelimiting_inQuotes hmatchKey.2 hmatchKey'.2 hmatch.2
          rw [List.cons.injEq] at hvalue
          obtain ⟨rfl, hrest⟩ := selfDelimiting_inQuotes hmatchValue.2 hmatchValue'.2 hvalue.2
          exact ⟨rfl, hrest⟩

theorem Step.first_of_toBytes {step : Step} {b : UInt8} {rest more : Bytes}
    (h : b :: rest = step.toBytes ++ more) : b = Byte.dot ∨ b = Byte.slash := by
  cases step with
  | member key => exact Or.inl (List.cons.inj h).1
  | element key matchKey matchValue => exact Or.inr (List.cons.inj h).1

theorem Path.cons_toBytes (step : Step) (path : Path) :
    toBytes (step :: path) =
      step.toBytes ++ if path = [] then [] else Byte.space :: path.toBytes := by
  cases path <;> simp [toBytes]

/-- The bracket after a path begins no step, and neither does it part two steps. -/
theorem Path.toBytes_append_inj {path other : Path} (hpath : path.Writable)
    (hother : other.Writable) {rest rest' : Bytes}
    (h : path.toBytes ++ Byte.closeBracket :: rest =
      other.toBytes ++ Byte.closeBracket :: rest') : path = other ∧ rest = rest' := by
  induction path generalizing other with
  | nil =>
      cases other with
      | nil => exact ⟨rfl, (List.cons.inj h).2⟩
      | cons step' other =>
          rw [cons_toBytes, List.append_assoc] at h
          exact absurd (Step.first_of_toBytes h) (by decide)
  | cons step path ih =>
      cases other with
      | nil =>
          rw [cons_toBytes, List.append_assoc] at h
          exact absurd (Step.first_of_toBytes h.symm) (by decide)
      | cons step' other =>
          obtain ⟨hstep, hsteps⟩ := List.forall_mem_cons.mp hpath
          obtain ⟨hstep', hsteps'⟩ := List.forall_mem_cons.mp hother
          rw [cons_toBytes, cons_toBytes, List.append_assoc, List.append_assoc] at h
          obtain ⟨rfl, htail⟩ := Step.selfDelimiting hstep hstep' h
          cases path with
          | nil =>
              cases other with
              | nil => exact ⟨rfl, (List.cons.inj htail).2⟩
              | cons next' other => exact absurd (List.cons.inj htail).1 (by decide)
          | cons next path =>
              cases other with
              | nil => exact absurd (List.cons.inj htail).1 (by decide)
              | cons next' other =>
                  obtain ⟨hsame, hrest⟩ := ih hsteps hsteps' (List.cons.inj htail).2
                  exact ⟨congrArg (step :: ·) hsame, hrest⟩

/-! ## Lines -/

namespace Dump

inductive Label where
  | root
  | tail
  | pre
  | post
  | lineItem
deriving DecidableEq

def Label.toBytes : Label → Bytes
  | .root => ascii "root"
  | .tail => ascii "tail"
  | .pre => ascii "pre"
  | .post => ascii "post"
  | .lineItem => ascii "line item"

def Label.sign : Label → Bytes
  | .lineItem => ascii "+"
  | _ => []

/-- No label begins with a blank, so that the indentation before it is known. -/
theorem Label.exists_cons (label : Label) :
    ∃ b rest, label.toBytes = b :: rest ∧ b ≠ Byte.space := by
  cases label <;> exact ⟨_, _, rfl, by decide⟩

/-- The labels differ in their first two letters. -/
theorem Label.selfDelimiting : SelfDelimiting (fun _ => True) Label.toBytes := by
  intro a b _ _ rest rest' h
  have hletters (label : Label) (rest : Bytes) :
      (label.toBytes ++ rest).take 2 = label.toBytes.take 2 := by
    cases label <;> rfl
  have hsame : a.toBytes.take 2 = b.toBytes.take 2 := by
    rw [← hletters a rest, h, hletters]
  obtain rfl : a = b := by
    revert hsame
    cases a <;> cases b <;> decide
  exact ⟨rfl, List.append_cancel_left h⟩

theorem Label.indented_inj {label label' : Label} {indent indent' : Nat} {rest rest' : Bytes}
    (h : List.replicate indent Byte.space ++ (label.toBytes ++ rest) =
      List.replicate indent' Byte.space ++ (label'.toBytes ++ rest')) :
    indent = indent' ∧ label = label' ∧ rest = rest' := by
  obtain ⟨b, tail, hlabel, hb⟩ := label.exists_cons
  obtain ⟨b', tail', hlabel', hb'⟩ := label'.exists_cons
  rw [hlabel, hlabel'] at h
  obtain ⟨hindent, hlabels⟩ := replicate_append_cons_inj hb hb' h
  have hbytes : label.toBytes ++ rest = label'.toBytes ++ rest' := by
    rw [hlabel, hlabel']
    exact hlabels
  exact ⟨hindent, Label.selfDelimiting trivial trivial hbytes⟩

structure Line where
  indent : Nat
  label : Label
  path : Path
  key : Bytes

namespace Line

def toBytes (line : Line) : Bytes :=
  List.replicate line.indent Byte.space ++ (line.label.toBytes ++ (ascii " [" ++
    (line.path.toBytes ++ Byte.closeBracket :: Byte.space ::
      (line.label.sign ++ (inQuotes line.key ++ [Byte.lineFeed])))))

theorem toBytes_ne_nil (line : Line) : line.toBytes ≠ [] := by
  simp [toBytes]

def Writable (line : Line) : Prop :=
  line.path.Writable ∧ IsKey line.key

theorem selfDelimiting : SelfDelimiting Writable toBytes := by
  intro a b ha hb rest rest' h
  obtain ⟨indent, label, path, key⟩ := a
  obtain ⟨indent', label', path', key'⟩ := b
  obtain ⟨hpath, hkey⟩ := ha
  obtain ⟨hpath', hkey'⟩ := hb
  simp only [toBytes, List.append_assoc, List.cons_append] at h
  obtain ⟨rfl, rfl, hafterLabel⟩ := Label.indented_inj h
  obtain ⟨rfl, hafterPath⟩ :=
    Path.toBytes_append_inj hpath hpath' (List.append_cancel_left hafterLabel)
  obtain ⟨rfl, hafterKey⟩ := selfDelimiting_inQuotes hkey.2 hkey'.2
    (List.append_cancel_left (List.cons.inj hafterPath).2)
  exact ⟨rfl, (List.cons.inj hafterKey).2⟩

end Line

/-! ## The lines of a program -/

def ruleLines (indent : Nat) (label : Label) (rules : List Rule) : List Line :=
  rules.map fun rule => ⟨indent, label, rule.path, rule.key⟩

def chainLines (indent : Nat) : List LineItem → List Line
  | [] => []
  | item :: chain =>
      ⟨indent, .lineItem, item.path, item.key⟩ ::
        (ruleLines (indent + 2) .pre item.pre ++
          (ruleLines (indent + 2) .post item.post ++ chainLines (indent + 2) chain))

theorem dumpRules_eq_flatMap (indent : Nat) {label : Label} (hlabel : label ≠ .lineItem)
    (rules : List Rule) :
    dumpRules indent label.toBytes rules =
      (ruleLines indent label rules).flatMap Line.toBytes := by
  have hsign : label.sign = [] := by cases label <;> trivial
  simp [dumpRules, ruleLines, Line.toBytes, List.flatMap_map, hsign, ascii]

theorem dumpChain_eq_flatMap (indent : Nat) (chain : List LineItem) :
    dumpChain indent chain = (chainLines indent chain).flatMap Line.toBytes := by
  induction chain generalizing indent with
  | nil => rfl
  | cons item chain ih =>
      have hpre := @dumpRules_eq_flatMap (indent + 2) .pre (by decide) item.pre
      have hpost := @dumpRules_eq_flatMap (indent + 2) .post (by decide) item.post
      simp only [Label.toBytes] at hpre hpost
      rw [dumpChain, hpre, hpost, ih]
      simp [chainLines, Line.toBytes, Label.toBytes, Label.sign, ascii]

end Dump

def Program.dumpLines (program : Program) : List Dump.Line :=
  Dump.ruleLines 0 .root program.root ++
    (Dump.chainLines 0 program.chain ++ Dump.ruleLines 0 .tail program.tail)

theorem Program.dump_eq_flatMap (program : Program) :
    program.dump = program.dumpLines.flatMap Dump.Line.toBytes := by
  have hroot := @Dump.dumpRules_eq_flatMap 0 .root (by decide) program.root
  have htail := @Dump.dumpRules_eq_flatMap 0 .tail (by decide) program.tail
  simp only [Dump.Label.toBytes] at hroot htail
  rw [dump, hroot, htail, Dump.dumpChain_eq_flatMap, dumpLines, List.flatMap_append,
    List.flatMap_append, List.append_assoc]

namespace Dump

/-! ## Finding the lists -/

/-- If there are lines, the first of them has one of the labels. -/
def StartsAmong (labels : List Label) (lines : List Line) : Prop :=
  ∀ line ∈ lines.head?, line.label ∈ labels

section Blocks

variable {labels : List Label} {more more' : List Line}

theorem not_startsAmong_cons {line : Line} (hlabel : line.label ∉ labels) (lines : List Line) :
    ¬ StartsAmong labels (line :: lines) :=
  fun h => hlabel (h line rfl)

theorem StartsAmong.ruleLines (h : StartsAmong labels more) (indent : Nat) (label : Label)
    (rules : List Rule) :
    StartsAmong (label :: labels) (ruleLines indent label rules ++ more) := by
  intro line hline
  cases rules with
  | nil => exact List.mem_cons_of_mem label (h line hline)
  | cons rule rules =>
      cases hline
      exact List.mem_cons_self

theorem StartsAmong.chainLines (h : StartsAmong labels more) (indent : Nat)
    (chain : List LineItem) :
    StartsAmong (.lineItem :: labels) (chainLines indent chain ++ more) := by
  intro line hline
  cases chain with
  | nil => exact List.mem_cons_of_mem .lineItem (h line hline)
  | cons item chain =>
      cases hline
      exact List.mem_cons_self

/-- A list of rules ends before the first line with another label. -/
theorem ruleLines_append_inj {indent : Nat} {label : Label} (hlabel : label ∉ labels)
    (hmore : StartsAmong labels more) (hmore' : StartsAmong labels more')
    {rules rules' : List Rule}
    (h : ruleLines indent label rules ++ more = ruleLines indent label rules' ++ more') :
    rules = rules' ∧ more = more' := by
  induction rules generalizing rules' with
  | nil =>
      cases rules' with
      | nil => exact ⟨rfl, h⟩
      | cons rule' rules' =>
          obtain rfl : more = ruleLines indent label (rule' :: rules') ++ more' := h
          exact absurd hmore (not_startsAmong_cons hlabel _)
  | cons rule rules ih =>
      cases rules' with
      | nil =>
          obtain rfl : ruleLines indent label (rule :: rules) ++ more = more' := h
          exact absurd hmore' (not_startsAmong_cons hlabel _)
      | cons rule' rules' =>
          obtain ⟨hline, hlines⟩ := List.cons.inj h
          obtain ⟨rfl, hrest⟩ := ih hlines
          obtain ⟨path, key⟩ := rule
          obtain ⟨path', key'⟩ := rule'
          cases hline
          exact ⟨rfl, hrest⟩

/-- A chain ends before the first line that is none of its own. -/
theorem chainLines_append_inj {indent : Nat} (hmore : StartsAmong [.tail] more)
    (hmore' : StartsAmong [.tail] more') {chain chain' : List LineItem}
    (h : chainLines indent chain ++ more = chainLines indent chain' ++ more') :
    chain = chain' ∧ more = more' := by
  induction chain generalizing indent chain' with
  | nil =>
      cases chain' with
      | nil => exact ⟨rfl, h⟩
      | cons item' chain' =>
          obtain rfl : more = chainLines indent (item' :: chain') ++ more' := h
          exact absurd hmore (not_startsAmong_cons (by simp) _)
  | cons item chain ih =>
      cases chain' with
      | nil =>
          obtain rfl : chainLines indent (item :: chain) ++ more = more' := h
          exact absurd hmore' (not_startsAmong_cons (by simp) _)
      | cons item' chain' =>
          obtain ⟨path, key, pre, post⟩ := item
          obtain ⟨path', key', pre', post'⟩ := item'
          simp only [Dump.chainLines, List.cons_append, List.append_assoc,
            List.cons.injEq] at h
          obtain ⟨hline, hlines⟩ := h
          cases hline
          have hchain := hmore.chainLines (indent + 2) chain
          have hchain' := hmore'.chainLines (indent + 2) chain'
          obtain ⟨rfl, hafterPre⟩ := ruleLines_append_inj (by decide)
            (hchain.ruleLines (indent + 2) .post post)
            (hchain'.ruleLines (indent + 2) .post post') hlines
          obtain ⟨rfl, hafterPost⟩ := ruleLines_append_inj (by decide) hchain hchain' hafterPre
          obtain ⟨rfl, hrest⟩ := ih hafterPost
          exact ⟨rfl, hrest⟩

end Blocks

end Dump

/-- The lines of a program have all that it is made of. -/
theorem Program.eq_of_dumpLines_eq {program other : Program}
    (h : program.dumpLines = other.dumpLines) :
    program.root = other.root ∧ program.chain = other.chain ∧ program.tail = other.tail := by
  have hnone : Dump.StartsAmong [] [] := fun _ hline => by cases hline
  have htail (program : Program) :
      Dump.StartsAmong [.tail] (Dump.ruleLines 0 .tail program.tail) := by
    simpa using hnone.ruleLines 0 .tail program.tail
  have hchain (program : Program) := (htail program).chainLines 0 program.chain
  obtain ⟨hroot, hafterRoot⟩ :=
    Dump.ruleLines_append_inj (by decide) (hchain program) (hchain other) h
  obtain ⟨hsame, hlast⟩ := Dump.chainLines_append_inj (htail program) (htail other) hafterRoot
  rw [← List.append_nil (Dump.ruleLines 0 .tail program.tail),
    ← List.append_nil (Dump.ruleLines 0 .tail other.tail)] at hlast
  exact ⟨hroot, hsame, (Dump.ruleLines_append_inj (by decide) hnone hnone hlast).1⟩

/-! ## Keys of compiled programs -/

def Rule.Writable (rule : Rule) : Prop :=
  rule.path.Writable ∧ IsKey rule.key

structure LineItem.Writable (item : LineItem) : Prop where
  path : item.path.Writable
  key : IsKey item.key
  rules : ∀ rule ∈ item.rules, rule.Writable

namespace Format

structure Content.Writable (c : Content) : Prop where
  rules : ∀ rule ∈ c.before ++ c.after, rule.Writable
  chain : ∀ item ∈ c.chain, item.Writable

theorem Content.Writable.append {a b : Content} (ha : a.Writable) (hb : b.Writable) :
    (a.append b).Writable where
  rules := by
    intro rule hrule
    have hmem : rule ∈ a.before ++ a.after ∨ rule ∈ b.before ++ b.after := by
      unfold Content.append at hrule
      split at hrule <;> simp at hrule ⊢ <;> tauto
    exact hmem.elim (ha.rules rule) (hb.rules rule)
  chain := by
    intro item hitem
    rw [append_chain] at hitem
    exact (List.mem_append.mp hitem).elim (ha.chain item) (hb.chain item)

theorem writable_snoc {path : Path} (hpath : path.Writable) {step : Step}
    (hstep : step.Writable) : Path.Writable (path ++ [step]) := by
  intro other hother
  rcases List.mem_append.mp hother with hother | hother
  · exact hpath other hother
  · exact List.mem_singleton.mp hother ▸ hstep

mutual

theorem Node.content_writable :
    (node : Node) → (path : Path) → path.Writable → {tokens : List Token} →
      node.Written tokens → (node.content path).Writable
  | .print key, path, hpath, _, .print hkey =>
      ⟨by simpa [Node.content, Rule.Writable] using ⟨hpath, hkey⟩, by simp [Node.content]⟩
  | .step _ nodes, path, hpath, _, .member hkey hnodes =>
      content_writable nodes _ (writable_snoc hpath hkey) hnodes
  | .step _ nodes, path, hpath, _, .element hkey hmatchKey hmatchValue _ hnodes =>
      content_writable nodes _
        (writable_snoc hpath (And.intro hkey (And.intro hmatchKey hmatchValue))) hnodes
  | .item key nodes, path, hpath, _, .item hkey hnodes => by
      have hinner := content_writable nodes [] (by simp [Path.Writable]) hnodes
      refine ⟨by simp [Node.content], ?_⟩
      intro item hitem
      rcases List.mem_cons.mp hitem with rfl | hitem
      · exact ⟨hpath, hkey, hinner.rules⟩
      · exact hinner.chain item hitem

/-- All that a written forest adds to a program can be written. -/
theorem content_writable :
    (nodes : List Node) → (path : Path) → path.Writable → {tokens : List Token} →
      Written nodes tokens → (content path nodes).Writable
  | [], _, _, _, _ => ⟨by simp [content], by simp [content]⟩
  | node :: nodes, path, hpath, _, .cons hnode hnodes =>
      (node.content_writable path hpath hnode).append (content_writable nodes path hpath hnodes)

end

end Format

namespace Dump

theorem writable_ruleLines {rules : List Rule} (h : ∀ rule ∈ rules, rule.Writable) (indent : Nat)
    (label : Label) : ∀ line ∈ ruleLines indent label rules, line.Writable :=
  List.forall_mem_map.mpr h

theorem writable_chainLines {chain : List LineItem} (h : ∀ item ∈ chain, item.Writable)
    (indent : Nat) : ∀ line ∈ chainLines indent chain, line.Writable := by
  induction chain generalizing indent with
  | nil => simp [chainLines]
  | cons item chain ih =>
      obtain ⟨hitem, hchain⟩ := List.forall_mem_cons.mp h
      obtain ⟨hpre, hpost⟩ := List.forall_mem_append.mp hitem.rules
      simp only [chainLines, List.forall_mem_cons, List.forall_mem_append]
      exact ⟨⟨hitem.path, hitem.key⟩, writable_ruleLines hpre (indent + 2) .pre,
        writable_ruleLines hpost (indent + 2) .post, ih hchain (indent + 2)⟩

end Dump

theorem Program.writable_dumpLines {format : Bytes} {options : Options} {program : Program}
    (h : Program.ofFormat format options = .ok program) :
    ∀ line ∈ program.dumpLines, line.Writable := by
  obtain ⟨nodes, ⟨tokens, hwritten, _⟩, _, rfl⟩ :=
    (compiles_iff_denotes (.ofBytes format) options program).1.mp h
  have hcontent := content_writable nodes [] (by simp [Path.Writable]) hwritten
  obtain ⟨hbefore, hafter⟩ := List.forall_mem_append.mp hcontent.rules
  simp only [dumpLines, List.forall_mem_append]
  exact ⟨Dump.writable_ruleLines hbefore 0 .root, Dump.writable_chainLines hcontent.chain 0,
    Dump.writable_ruleLines hafter 0 .tail⟩

/--
Two formats that compile have the same dump exactly if they have the same columns and line
items: the rules at the root, the line items with their paths, keys and rules, and the rules
after them.
-/
theorem Program.dumps_tell_programs_apart {format other : Bytes} {options options' : Options}
    {program program' : Program} (h : Program.ofFormat format options = .ok program)
    (h' : Program.ofFormat other options' = .ok program') :
    program.dump = program'.dump ↔
      program.root = program'.root ∧ program.chain = program'.chain ∧
        program.tail = program'.tail := by
  constructor
  · intro hdump
    rw [dump_eq_flatMap, dump_eq_flatMap] at hdump
    exact eq_of_dumpLines_eq (Dump.Line.selfDelimiting.flatMap_inj Dump.Line.toBytes_ne_nil
      (writable_dumpLines h) (writable_dumpLines h') hdump)
  · rintro ⟨hroot, hchain, htail⟩
    rw [dump, dump, hroot, hchain, htail]

/-- A key that reads like the end of a line and the beginning of another, in two places. -/
theorem Program.dumps_tell_programs_apart_by_place_of_key :
    let format := ascii "+\"a\"[\"b\" +\"c\"[\"d\"] \"]\n  pre [\"]"
    let other := ascii "+\"a\"[\"b\", \"]\n  pre [\" +\"c\"[\"d\"]] # e"
    let inner : LineItem := ⟨[], ascii "c", [⟨[], ascii "d"⟩], []⟩
    let rules : List Rule := [⟨[], ascii "b"⟩, ⟨[], ascii "]\n  pre ["⟩]
    let program : Program :=
      ⟨format, {}, [], [⟨[], ascii "a", rules.take 1, rules.drop 1⟩, inner], []⟩
    let program' : Program := ⟨other, {}, [], [⟨[], ascii "a", rules, []⟩, inner], []⟩
    Program.ofFormat format {} = .ok program ∧ Program.ofFormat other {} = .ok program' ∧
      program.dump ≠ program'.dump := by
  intro format other inner rules program program'
  have hprogram : Program.ofFormat format {} = .ok program := by rfl
  have hprogram' : Program.ofFormat other {} = .ok program' := by rfl
  refine ⟨hprogram, hprogram', fun hdump => ?_⟩
  obtain ⟨_, hchain, _⟩ := (dumps_tell_programs_apart hprogram hprogram').mp hdump
  exact absurd hchain (by decide)

end JsonTable
