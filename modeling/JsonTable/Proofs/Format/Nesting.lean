import JsonTable.Proofs.Format.Forest
import JsonTable.Proofs.Format.Reading

/-!
# Nesting

A forest is also a sequence of operations, in which each opening is closed in
turn. `written_iff_spelled` says that both are shown by the same tokens, and
`Completes` describes the sequences that close a given number of open brackets:
between the closings stand whole forests.
-/

namespace JsonTable.Format

mutual

def Node.operations : Node → List Operation
  | .print key => [.print key]
  | .step step nodes => .descend step :: operations nodes ++ [.close]
  | .item key nodes => .openItem key :: operations nodes ++ [.close]

def operations : List Node → List Operation
  | [] => []
  | node :: nodes => node.operations ++ operations nodes

end

/-! ## Spelling a forest -/

theorem spelled_bracketed_iff {operation : Operation} {inner : List Operation}
    {tokens : List Token} :
    Spelled (operation :: inner ++ [.close]) tokens ↔
      ∃ first middle, tokens = first ++ middle ++ [.closeBracket] ∧
        operation.Spelled first ∧ Spelled inner middle := by
  constructor
  · intro h
    cases h with
    | @cons _ _ first rest hop hrest =>
        obtain ⟨middle, last, rfl, hmiddle, hlast⟩ := spelled_append_iff.mp hrest
        cases hlast with
        | cons hclose hnil =>
            cases hclose
            cases hnil
            exact ⟨first, middle, by simp, hop, hmiddle⟩
  · rintro ⟨first, middle, rfl, hop, hmiddle⟩
    rw [List.append_assoc]
    exact .cons hop (hmiddle.append (.cons .close .nil))

mutual

theorem Node.written_iff_spelled :
    (node : Node) → {tokens : List Token} → (node.Written tokens ↔ Spelled node.operations tokens)
  | .print key, tokens => by
      rw [Node.operations]
      constructor
      · intro h
        cases h with
        | print hkey => exact .cons (.print hkey) .nil
      · intro h
        cases h with
        | cons hop hnil =>
            cases hop with
            | print hkey =>
                cases hnil
                exact .print hkey
  | .step (.member key) nodes, tokens => by
      rw [Node.operations, spelled_bracketed_iff]
      constructor
      · intro h
        cases h with
        | member hkey h => exact ⟨_, _, rfl, .member hkey, (written_iff_spelled nodes).mp h⟩
      · rintro ⟨first, middle, rfl, hop, h⟩
        cases hop with
        | member hkey => exact .member hkey ((written_iff_spelled nodes).mpr h)
  | .step (.element key matchKey matchValue) nodes, tokens => by
      rw [Node.operations, spelled_bracketed_iff]
      constructor
      · intro h
        cases h with
        | element hkey hmatchKey hmatchValue hbracket h =>
            exact ⟨_, _, rfl, .element hkey hmatchKey hmatchValue hbracket,
              (written_iff_spelled nodes).mp h⟩
      · rintro ⟨first, middle, rfl, hop, h⟩
        cases hop with
        | element hkey hmatchKey hmatchValue hbracket =>
            exact .element hkey hmatchKey hmatchValue hbracket
              ((written_iff_spelled nodes).mpr h)
  | .item key nodes, tokens => by
      rw [Node.operations, spelled_bracketed_iff]
      constructor
      · intro h
        cases h with
        | item hkey h => exact ⟨_, _, rfl, .openItem hkey, (written_iff_spelled nodes).mp h⟩
      · rintro ⟨first, middle, rfl, hop, h⟩
        cases hop with
        | openItem hkey => exact .item hkey ((written_iff_spelled nodes).mpr h)

theorem written_iff_spelled :
    (nodes : List Node) → {tokens : List Token} →
      (Written nodes tokens ↔ Spelled (operations nodes) tokens)
  | [], tokens => by
      rw [operations]
      constructor
      · intro h
        cases h
        exact .nil
      · intro h
        cases h
        exact .nil
  | node :: nodes, tokens => by
      rw [operations, spelled_append_iff]
      constructor
      · intro h
        cases h with
        | cons hnode h =>
            exact ⟨_, _, rfl, node.written_iff_spelled.mp hnode, (written_iff_spelled nodes).mp h⟩
      · rintro ⟨first, second, rfl, hfirst, hsecond⟩
        exact .cons (node.written_iff_spelled.mpr hfirst) ((written_iff_spelled nodes).mpr hsecond)

end

/-! ## Closing what is open -/

/-- A sequence of operations that closes all of so many open brackets, and no more. -/
inductive Completes : Nat → List Operation → Prop where
  | all (nodes : List Node) : Completes 0 (operations nodes)
  | close (nodes : List Node) {count : Nat} {rest : List Operation} : Completes count rest →
      Completes (count + 1) (operations nodes ++ .close :: rest)

theorem Completes.cons (node : Node) {count : Nat} {rest : List Operation}
    (h : Completes count rest) : Completes count (node.operations ++ rest) := by
  cases h with
  | all nodes => exact .all (node :: nodes)
  | close nodes h =>
      rw [← List.append_assoc]
      exact .close (node :: nodes) h

/-- The first bracket closed belongs to the operation before it, which makes a node. -/
theorem Completes.open {operation : Operation} {count : Nat} {rest : List Operation}
    (wrap : List Node → Node)
    (hwrap : ∀ nodes, (wrap nodes).operations = operation :: operations nodes ++ [.close])
    (h : Completes (count + 1) rest) : Completes count (operation :: rest) := by
  cases h with
  | close nodes h =>
      have hnode := h.cons (wrap nodes)
      rw [hwrap] at hnode
      simpa using hnode

end JsonTable.Format
