import JsonTable.Proofs.Format.Runs
import Mathlib.Data.List.Basic

/-!
# Paths as formats

Messages show a path as a format has it. If the texts of its steps can be keys, then the
path followed by a key and closing brackets is a format, whatever other bytes the keys
have, and it has one rule, with this path. So no two such paths are shown alike.
-/

namespace JsonTable

open Bytes Format

namespace Step

def Writable : Step → Prop
  | .member key => IsKey key
  | .element key matchKey matchValue => IsKey key ∧ IsKey matchKey ∧ IsKey matchValue

instance : (step : Step) → Decidable step.Writable
  | .member key => inferInstanceAs (Decidable (IsKey key))
  | .element key matchKey matchValue =>
      inferInstanceAs (Decidable (IsKey key ∧ IsKey matchKey ∧ IsKey matchValue))

/-- The tokens that a step is shown with. There is no bracket after a match value. -/
def tokens : Step → List Token
  | .member key => [.dot, .key key, .openBracket]
  | .element key matchKey matchValue =>
      [.slash, .key key, .openBracket, .key matchKey, .equals, .key matchValue]

theorem toBytes_eq_flatMap (step : Step) : step.toBytes = step.tokens.flatMap Token.toBytes := by
  cases step <;> simp [toBytes, tokens, Token.toBytes]

theorem spelled_tokens {step : Step} (h : step.Writable) :
    Operation.Spelled (.descend step) step.tokens := by
  cases step with
  | member key => exact .member h
  | element key matchKey matchValue =>
      obtain ⟨hkey, hmatchKey, hmatchValue⟩ := h
      exact .element hkey hmatchKey hmatchValue (Or.inl rfl)

end Step

def Path.Writable (path : Path) : Prop :=
  ∀ step ∈ path, step.Writable

instance (path : Path) : Decidable path.Writable :=
  inferInstanceAs (Decidable (∀ step ∈ path, step.Writable))

namespace Format

theorem spaced_flatMap (tokens : List Token) {more : List Token} {rest : Bytes}
    (h : Spaced more rest) : Spaced (tokens ++ more) (tokens.flatMap Token.toBytes ++ rest) := by
  induction tokens with
  | nil => exact h
  | cons token tokens ih =>
      rw [List.flatMap_cons, List.append_assoc]
      exact @Spaced.cons [] _ token _ .nil ih

theorem spaced_blank {tokens : List Token} {b : UInt8} {text : Bytes} (hb : isBlank b = true)
    (h : Spaced tokens text) : Spaced tokens (b :: text) := by
  rwa [← spaced_skipBlanks, skipBlanks_blank hb, spaced_skipBlanks]

end Format

namespace Path

theorem spaced_toBytes (path : Path) {more : List Token} {rest : Bytes} (h : Spaced more rest) :
    Spaced (path.flatMap Step.tokens ++ more) (path.toBytes ++ rest) := by
  induction path with
  | nil => exact h
  | cons step path ih =>
      rw [List.flatMap_cons, List.append_assoc]
      cases path with
      | nil =>
          have hshown : toBytes [step] = step.tokens.flatMap Token.toBytes := by
            rw [← step.toBytes_eq_flatMap, toBytes, List.map_singleton,
              List.intercalate_singleton]
          rw [hshown]
          exact spaced_flatMap step.tokens h
      | cons next path =>
          have hshown : toBytes (step :: next :: path) ++ rest =
              step.tokens.flatMap Token.toBytes ++
                Byte.space :: (toBytes (next :: path) ++ rest) := by
            rw [← step.toBytes_eq_flatMap]
            simp [toBytes]
          rw [hshown]
          exact spaced_flatMap step.tokens (spaced_blank rfl ih)

theorem spelled_tokens {path : Path} (h : path.Writable) :
    Spelled (path.map .descend) (path.flatMap Step.tokens) := by
  induction path with
  | nil => exact .nil
  | cons step path ih =>
      obtain ⟨hstep, hpath⟩ := List.forall_mem_cons.mp h
      exact .cons (Step.spelled_tokens hstep) (ih hpath)

theorem run_descends (draft : Draft) (path : Path) :
    draft.run (path.map .descend) =
      some { draft with levels := (path.map (Level.mk · 0)).reverse ++ draft.levels } := by
  induction path generalizing draft with
  | nil => rfl
  | cons step path ih =>
      have hstep : draft.run (List.map .descend (step :: path)) =
          Draft.run { draft with levels := ⟨step, 0⟩ :: draft.levels } (path.map .descend) := rfl
      rw [hstep, ih]
      simp

def formatFor (path : Path) (key : Bytes) : Bytes :=
  path.toBytes ++ inQuotes key ++ List.replicate path.length Byte.closeBracket

theorem ofFormat_formatFor {path : Path} (h : path.Writable) {key : Bytes} (hkey : IsKey key)
    (options : Options) :
    Program.ofFormat (path.formatFor key) options =
      .ok ⟨path.formatFor key, options, [⟨path, key⟩], [], []⟩ := by
  let levels : List Level := (path.map (Level.mk · 0)).reverse
  have hlevels : pathOf levels = path := by
    simp [levels, pathOf, ← List.map_reverse, Function.comp_def]
  -- After the key all levels are open, and the rule is there.
  let printed : Draft := { levels, root := [⟨path, key⟩] }
  have hcount : printed.openCount = path.length := by
    simp [printed, levels, Draft.openCount]
  have hprinted : Draft.run {} (path.map .descend ++ [.print key]) = some printed := by
    rw [Draft.run_append, run_descends, Option.bind_some, List.append_nil]
    exact congrArg (fun shown : Path => some { levels, root := [⟨shown, key⟩] : Draft }) hlevels
  obtain ⟨hclosed, hnone⟩ := (@Draft.run_closings_iff printed _ path.length).mpr
    ⟨hcount.symm, rfl⟩
  have hspelled := ((spelled_tokens h).append (.cons (.print hkey) .nil)).append
    (spelled_closings path.length)
  have hspaced : Spaced (path.flatMap Step.tokens ++ [.key key] ++
      List.replicate path.length .closeBracket) (path.formatFor key) := by
    rw [formatFor, List.append_assoc, List.append_assoc]
    exact path.spaced_toBytes (@Spaced.cons [] _ (.key key) _ .nil (spaced_closings path.length))
  refine (ofFormat_iff_run hspelled hspaced).mpr ⟨printed.closeAll, ?_, hnone, rfl⟩
  rw [Draft.run_append, hprinted]
  exact hclosed

theorem eq_of_toBytes_eq {path other : Path} (h : path.Writable) (hother : other.Writable)
    (heq : path.toBytes = other.toBytes) : path = other := by
  have hread {shown : Path} (hshown : shown.Writable) :
      ∃ script, readScript (shown.toBytes.length + 1) shown.toBytes = .ok script ∧
        script.map Prod.snd = shown.map .descend := by
    have hspaced := shown.spaced_toBytes (.nil (.gap .nil))
    rw [List.append_nil, List.append_nil] at hspaced
    exact readScript_complete (spelled_tokens hshown) hspaced (Nat.lt_succ_self _)
  obtain ⟨script, hscript, hoperations⟩ := hread h
  obtain ⟨same, hsame, hsteps⟩ := hread hother
  rw [heq] at hscript
  cases hscript.symm.trans hsame
  have hmap : path.map Operation.descend = other.map .descend := hoperations.symm.trans hsteps
  exact List.map_injective_iff.mpr (fun _ _ => Operation.descend.inj) hmap

/--
What messages show of a path is a format, up to a key and the closing brackets. With them it
is compiled to a program that has no line items and no rules after them, and the one rule for
the key at the end of the path. Paths that are shown alike are the same.
-/
theorem path_texts_are_formats {path : Path} (h : path.Writable) (options : Options) :
    (∀ key, IsKey key →
      Program.ofFormat
          (path.toBytes ++ inQuotes key ++ List.replicate path.length Byte.closeBracket) options =
        .ok ⟨path.toBytes ++ inQuotes key ++ List.replicate path.length Byte.closeBracket,
          options, [⟨path, key⟩], [], []⟩) ∧
    ∀ other : Path, other.Writable → other.toBytes = path.toBytes → other = path :=
  ⟨fun _ hkey => ofFormat_formatFor h hkey options, fun _ hother => eq_of_toBytes_eq hother h⟩

/-- Keys may hold brackets, newlines, and what otherwise begins a comment or parts a match. -/
theorem path_texts_are_formats_of_odd_keys :
    let path : Path := [.element (ascii "a]#") (ascii "=") (ascii "x\ny["), .member (ascii "+,.")]
    let format := ascii "/\"a]#\"[\"=\"=\"x\ny[\" .\"+,.\"[\" /\"]]"
    Program.ofFormat format {} = .ok ⟨format, {}, [⟨path, ascii " /"⟩], [], []⟩ ∧
      ∀ other : Path, other.Writable → other.toBytes = path.toBytes → other = path := by
  intro path format
  have hwritable : path.Writable := by decide
  obtain ⟨hcompiles, htells⟩ := path_texts_are_formats hwritable {}
  exact ⟨hcompiles (ascii " /") (by decide), htells⟩

end Path

end JsonTable
