import JsonTable.Program
import JsonTable.Proofs.Format.Tokens

/-!
# Forests

Since brackets nest, a format shows a forest: printed keys, steps and line
items, each of the last two around the nodes between its brackets. `Renders`
says which texts show a forest. `programOf` is the program that a forest
denotes, put together from the contents of its nodes. A program has one chain of
line items, so only the forests with `OnOnePath` denote one that says all that
they say.
-/

namespace JsonTable.Format

/-- A part of a format that is complete in itself. -/
inductive Node where
  | print (key : Bytes)
  | step (step : Step) (nodes : List Node)
  | item (key : Bytes) (nodes : List Node)
deriving Repr

/-! ## Texts -/

mutual

/-- The tokens that show a node. The bracket after a match value is optional. -/
inductive Node.Written : Node → List Token → Prop where
  | print {key : Bytes} : IsKey key → Node.Written (.print key) [.key key]
  | member {key : Bytes} {nodes : List Node} {tokens : List Token} : IsKey key →
      Written nodes tokens →
      Node.Written (.step (.member key) nodes)
        ([.dot, .key key, .openBracket] ++ tokens ++ [.closeBracket])
  | element {key matchKey matchValue : Bytes} {nodes : List Node}
      {bracket tokens : List Token} : IsKey key → IsKey matchKey → IsKey matchValue →
      bracket = [] ∨ bracket = [.openBracket] → Written nodes tokens →
      Node.Written (.step (.element key matchKey matchValue) nodes)
        ([.slash, .key key, .openBracket, .key matchKey, .equals, .key matchValue] ++ bracket
          ++ tokens ++ [.closeBracket])
  | item {key : Bytes} {nodes : List Node} {tokens : List Token} : IsKey key →
      Written nodes tokens →
      Node.Written (.item key nodes)
        ([.plus, .key key, .openBracket] ++ tokens ++ [.closeBracket])

inductive Written : List Node → List Token → Prop where
  | nil : Written [] []
  | cons {node : Node} {nodes : List Node} {tokens more : List Token} :
      node.Written tokens → Written nodes more → Written (node :: nodes) (tokens ++ more)

end

/-- The text shows the forest, with any gaps around the tokens. -/
def Renders (nodes : List Node) (text : Bytes) : Prop :=
  ∃ tokens, Written nodes tokens ∧ Spaced tokens text

/-! ## Line items on one path -/

mutual

/-- Where the line items of a node are: for each the child numbers on the way down to it. -/
def Node.itemAddresses : Node → List (List Nat)
  | .print _ => []
  | .step _ nodes => itemAddresses 0 nodes
  | .item _ nodes => [] :: itemAddresses 0 nodes

/-- Where the line items of a forest are, if the nodes before it are `first` in number. -/
def itemAddresses (first : Nat) : List Node → List (List Nat)
  | [] => []
  | node :: nodes => node.itemAddresses.map (first :: ·) ++ itemAddresses (first + 1) nodes

end

/-- Of any two addresses one is on the way down to the other. -/
def Linear (addresses : List (List Nat)) : Prop :=
  ∀ a ∈ addresses, ∀ b ∈ addresses, a <+: b ∨ b <+: a

/-- All line items of the forest lie on one path down from its root. -/
def OnOnePath (nodes : List Node) : Prop :=
  Linear (itemAddresses 0 nodes)

/-! ## Programs -/

/-- What a part of a format adds to a program: rules, a chain of line items, and rules after it. -/
@[ext]
structure Content where
  before : List Rule
  chain : List LineItem
  after : List Rule
deriving Repr, DecidableEq

/-- Two contents side by side. What stands after a line item stays after it. -/
def Content.append (a b : Content) : Content :=
  match a.chain with
  | [] => ⟨a.before ++ b.before, b.chain, b.after⟩
  | _ => ⟨a.before, a.chain ++ b.chain, a.after ++ b.before ++ b.after⟩

mutual

/-- What a node adds where `path` leads from the innermost line item around it. -/
def Node.content (path : Path) : Node → Content
  | .print key => ⟨[⟨path, key⟩], [], []⟩
  | .step step nodes => content (path ++ [step]) nodes
  | .item key nodes =>
      let inner := content [] nodes
      ⟨[], ⟨path, key, inner.before, inner.after⟩ :: inner.chain, []⟩

def content (path : Path) : List Node → Content
  | [] => ⟨[], [], []⟩
  | node :: nodes => (node.content path).append (content path nodes)

end

def programOf (nodes : List Node) (format : Bytes) (options : Options) : Program :=
  let whole := content [] nodes
  ⟨format, options, whole.before, whole.chain, whole.after⟩

/-! ## Facts about paths -/

theorem linear_nil : Linear [] := by
  simp [Linear]

theorem linear_map_cons {first : Nat} {addresses : List (List Nat)} :
    Linear (addresses.map (first :: ·)) ↔ Linear addresses := by
  simp [Linear, List.cons_prefix_cons]

theorem linear_root_cons {addresses : List (List Nat)} :
    Linear ([] :: addresses) ↔ Linear addresses := by
  simp [Linear]

/-- Addresses below different children are never on the way to one another. -/
theorem linear_append_iff {xs ys : List (List Nat)}
    (hdiff : ∀ x ∈ xs, ∀ y ∈ ys, ¬ (x <+: y ∨ y <+: x)) :
    Linear (xs ++ ys) ↔ Linear xs ∧ Linear ys ∧ (xs = [] ∨ ys = []) := by
  constructor
  · intro h
    refine ⟨fun a ha b hb => h a (by simp [ha]) b (by simp [hb]),
      fun a ha b hb => h a (by simp [ha]) b (by simp [hb]), ?_⟩
    cases xs with
    | nil => exact Or.inl rfl
    | cons x xs =>
        cases ys with
        | nil => exact Or.inr rfl
        | cons y ys =>
            exact absurd (h x (by simp) y (by simp)) (hdiff x (by simp) y (by simp))
  · rintro ⟨hx, hy, rfl | rfl⟩
    · simpa using hy
    · simpa using hx

theorem head_of_mem_itemAddresses {nodes : List Node} {first : Nat} {address : List Nat}
    (h : address ∈ itemAddresses first nodes) :
    ∃ child rest, address = child :: rest ∧ first ≤ child := by
  induction nodes generalizing first with
  | nil => simp [itemAddresses] at h
  | cons node nodes ih =>
      rw [itemAddresses, List.mem_append, List.mem_map] at h
      rcases h with ⟨rest, _, rfl⟩ | h
      · exact ⟨first, rest, rfl, Nat.le_refl _⟩
      · obtain ⟨child, rest, rfl, hle⟩ := ih h
        exact ⟨child, rest, rfl, by omega⟩

theorem linear_itemAddresses_cons {node : Node} {nodes : List Node} {first : Nat} :
    Linear (itemAddresses first (node :: nodes)) ↔
      Linear node.itemAddresses ∧ Linear (itemAddresses (first + 1) nodes) ∧
        (node.itemAddresses = [] ∨ itemAddresses (first + 1) nodes = []) := by
  rw [itemAddresses, linear_append_iff, linear_map_cons, List.map_eq_nil_iff]
  intro x hx y hy
  obtain ⟨rest, _, rfl⟩ := List.mem_map.mp hx
  obtain ⟨child, tail, rfl, hle⟩ := head_of_mem_itemAddresses hy
  simp only [List.cons_prefix_cons, not_or, not_and]
  exact ⟨fun h => by omega, fun h => by omega⟩

end JsonTable.Format
