import JsonTable.CommandLine.Run
import JsonTable.Proofs.CommandLine.Scanning
import JsonTable.Proofs.SelfDelimiting

/-!
# Abbreviated flags

All words up to the first `--` are checked to name flags in full. If that `--` is where the
flags end, this covers all flags there are. But it may be the argument of a flag, and then
nothing after it is checked: there a flag is accepted by the first letters of its name.
-/

namespace JsonTable.CommandLine

open Bytes

/-- A flag was given by its whole name. -/
def Entry.InFull : Entry → Prop
  | .flag named written _ => written = named.name
  | .operand _ => True

instance : (entry : Entry) → Decidable entry.InFull
  | .flag named written _ => inferInstanceAs (Decidable (written = named.name))
  | .operand _ => inferInstanceAs (Decidable True)

namespace Expected

def InFull : Expected → Prop
  | .argument flag written => written = flag.name
  | _ => True

end Expected

theorem Flag.name_of_ofName? {text : Bytes} {flag : Flag} (h : ofName? text = some flag) :
    flag.name = text := by
  simpa using List.find?_some h

theorem eq_name_of_resolveFlag {word body : Bytes} {flag : Flag}
    (hword : isUnknownFlag word = false) (hbody : after? hyphens word = some body)
    (hflag : resolveFlag body (splitArgument body).1 = .ok flag) :
    (splitArgument body).1 = flag.name := by
  simp only [isUnknownFlag, hbody, Option.isNone_eq_false_iff, Option.isSome_iff_exists] at hword
  obtain ⟨named, hnamed⟩ := hword
  simp only [resolveFlag, hnamed, Except.ok.injEq] at hflag
  exact hflag ▸ (Flag.name_of_ofName? hnamed).symm

namespace Expected

variable {operandsEndFlags : Bool}

theorem ofWord_inFull {word : Bytes} (hword : isUnknownFlag word = false) :
    (∀ entry ∈ (ofWord operandsEndFlags word).1, entry.InFull) ∧
      (ofWord operandsEndFlags word).2.InFull := by
  unfold ofWord
  by_cases hoperand : isOperand word = true
  · cases operandsEndFlags <;> simp [hoperand, Entry.InFull, InFull]
  rw [if_neg hoperand]
  split
  · simp [InFull]
  · simp [InFull]
  · next body _ hbody =>
      cases hflag : resolveFlag body (splitArgument body).1 with
      | error error => simp [hflag, InFull]
      | ok flag =>
          have hname := eq_name_of_resolveFlag hword hbody hflag
          simp only [hflag]
          split <;> simp [Entry.InFull, InFull, hname]

theorem step_inFull {expected : Expected} (h : expected.InFull) {word : Bytes}
    (hword : isUnknownFlag word = false) :
    (∀ entry ∈ (expected.step operandsEndFlags word).1, entry.InFull) ∧
      (expected.step operandsEndFlags word).2.InFull := by
  cases expected with
  | entry => exact ofWord_inFull hword
  | argument flag written => simpa [step, Entry.InFull, InFull] using h
  | operand => simp [step, Entry.InFull, InFull]
  | nothing error => simp [step, InFull]

/-- Checked words give flags in full, whatever they are read as. -/
theorem scan_inFull {expected : Expected} (h : expected.InFull) {words : List Bytes}
    (hwords : ∀ word ∈ words, isUnknownFlag word = false) :
    (∀ entry ∈ (scan operandsEndFlags expected words).1, entry.InFull) ∧
      (scan operandsEndFlags expected words).2.InFull := by
  induction words generalizing expected with
  | nil => exact ⟨by simp [scan], h⟩
  | cons word words ih =>
      obtain ⟨hword, hwords⟩ := List.forall_mem_cons.mp hwords
      obtain ⟨hread, hnext⟩ := @step_inFull operandsEndFlags _ h word hword
      obtain ⟨hmore, hlast⟩ := ih hnext hwords
      exact ⟨List.forall_mem_append.mpr ⟨hread, hmore⟩, hlast⟩

end Expected

/-- Before the first `--` all flags are in full, also one that waits there for its argument. -/
theorem scan_before_hyphens_inFull {operandsEndFlags : Bool} {before rest : List Bytes}
    (hbefore : hyphens ∉ before) (hrest : ∀ word ∈ rest.head?, word = hyphens)
    (hchecked : findUnknownFlag? (before ++ rest) = none) :
    (∀ entry ∈ (Expected.scan operandsEndFlags .entry before).1, entry.InFull) ∧
      (Expected.scan operandsEndFlags .entry before).2.InFull :=
  Expected.scan_inFull (show Expected.InFull .entry from trivial)
    ((findUnknownFlag?_eq_none_iff hbefore hrest).mp hchecked)

theorem Expected.scan_hyphens (operandsEndFlags : Bool) (expected : Expected)
    (after : List Bytes) :
    scan operandsEndFlags expected (hyphens :: after) =
      match expected with
      | .entry => (after.map .operand, .operand)
      | .argument flag written =>
          ((Entry.flag flag written hyphens) :: (scan operandsEndFlags .entry after).1,
            (scan operandsEndFlags .entry after).2)
      | .operand => (.operand hyphens :: after.map .operand, .operand)
      | .nothing error => ([], .nothing error) := by
  have hends : ofWord operandsEndFlags hyphens = ([], .operand) := rfl
  cases expected <;> simp [scan, step, hends, scan_operand, scan_nothing]

/-- Past the first `--` there are flags only if it is the argument of one. -/
theorem inFull_around_hyphens_iff {operandsEndFlags : Bool} {before after : List Bytes}
    (hbefore : hyphens ∉ before)
    (hchecked : findUnknownFlag? (before ++ hyphens :: after) = none)
    (herror : (entries operandsEndFlags (before ++ hyphens :: after)).2 = none) :
    (∀ entry ∈ (entries operandsEndFlags (before ++ hyphens :: after)).1, entry.InFull) ↔
      ∀ flag, (entries operandsEndFlags before).2 = some (.missingArgument flag) →
        ∀ entry ∈ (entries operandsEndFlags after).1, entry.InFull := by
  obtain ⟨hfull, hwaits⟩ :=
    @scan_before_hyphens_inFull operandsEndFlags _ _ hbefore (by simp) hchecked
  simp only [entries_eq_scan, Expected.scan_append, Expected.scan_hyphens] at herror ⊢
  cases hexpected : (Expected.scan operandsEndFlags .entry before).2 with
  | entry =>
      simp only [Expected.error?, List.forall_mem_append]
      exact iff_of_true ⟨hfull, by simp [Entry.InFull]⟩ (by simp)
  | argument flag written =>
      simp only [Expected.error?, List.forall_mem_append, List.forall_mem_cons]
      rw [hexpected] at hwaits
      constructor
      · intro hall _ _
        exact hall.2.2
      · intro hafter
        exact ⟨hfull, hwaits, hafter flag rfl⟩
  | operand =>
      simp only [Expected.error?, List.forall_mem_append, List.forall_mem_cons]
      exact iff_of_true ⟨hfull, trivial, by simp [Entry.InFull]⟩ (by simp)
  | nothing error => simp [hexpected, Expected.error?] at herror

/--
All flags of words that are accepted were given in full, unless a flag takes the first `--` for
its argument. Then those up to there were given in full, and so all were exactly if all are that
come after it.
-/
theorem flags_in_full_iff {surroundings : Surroundings} {words : List Bytes}
    {invocation : Invocation} (h : parse surroundings words = .ok invocation) :
    (∀ entry ∈ (entries (operandsEndFlags surroundings) words).1, entry.InFull) ↔
      ∀ before after flag, words = before ++ hyphens :: after → hyphens ∉ before →
        (entries (operandsEndFlags surroundings) before).2 = some (.missingArgument flag) →
        ∀ entry ∈ (entries (operandsEndFlags surroundings) after).1, entry.InFull := by
  obtain ⟨hchecked, herror, _⟩ := parseWords_eq_ok_iff.mp h
  by_cases hmem : hyphens ∈ words
  · obtain ⟨before, after, rfl, hbefore⟩ := List.eq_append_cons_of_mem hmem
    rw [inFull_around_hyphens_iff hbefore hchecked herror]
    constructor
    · intro hafter before' after' flag hsplit hbefore' hwaits
      obtain ⟨rfl, rfl⟩ := append_cons_inj_of_notMem hbefore hbefore' hsplit
      exact hafter flag hwaits
    · intro hafter flag hwaits
      exact hafter before after flag rfl hbefore hwaits
  · obtain ⟨hfull, _⟩ := @scan_before_hyphens_inFull (operandsEndFlags surroundings) words []
      hmem (by simp) (by rwa [List.append_nil])
    rw [entries_eq_scan]
    refine iff_of_true hfull fun before after flag hsplit _ _ => ?_
    exact absurd (by simp [hsplit]) hmem

/-- An empty array on the standard input, and no variables or files. -/
def bareSurroundings : Surroundings where
  command := ascii "jsonflat"
  environment := fun _ => none
  standardInput := ascii "[]"
  file := fun _ => .absent
  outputFull := false

/-- A `--` that is shown for gaps, with a flag in full after it. -/
theorem flags_in_full_past_hyphens_for_gaps :
    let words :=
      [ascii "--format=\"a\"", ascii "--null-value", hyphens, ascii "--quote=always"]
    ∃ invocation, parse bareSurroundings words = .ok invocation ∧
      ∀ entry ∈ (entries (operandsEndFlags bareSurroundings) words).1, entry.InFull := by
  intro words
  refine ⟨_, rfl, (flags_in_full_iff rfl).mpr ?_⟩
  intro before after flag hsplit hbefore _
  have hfirst : hyphens ∉ [ascii "--format=\"a\"", ascii "--null-value"] := by decide
  obtain ⟨_, rfl⟩ := append_cons_inj_of_notMem hfirst hbefore hsplit
  decide

/-- After a `--` that is shown for gaps, a flag need not be in full. -/
theorem abbreviated_flag_is_accepted_past_hyphens_for_gaps :
    let words :=
      [ascii "--format=\"a\"", ascii "--null-value", hyphens, ascii "--quo=always"]
    ∃ invocation, parse bareSurroundings words = .ok invocation ∧
      ¬ ∀ entry ∈ (entries (operandsEndFlags bareSurroundings) words).1, entry.InFull := by
  intro words
  exact ⟨_, rfl, by decide⟩

end JsonTable.CommandLine
