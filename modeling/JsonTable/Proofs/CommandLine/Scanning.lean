import JsonTable.CommandLine.Invocation
import JsonTable.Proofs.Reports

/-!
# Reading words one by one

What a word stands for depends on the words before it only by what is expected there: any
entry, the argument of a flag, or operands alone. With this kept from one word to the next,
`entries` reads the words one by one, so that it can be said what some of them stand for
whatever words come after them.
-/

namespace JsonTable.CommandLine

open Bytes

/-- What the next word is read as. Nothing is read after an error. -/
inductive Expected where
  | entry
  | argument (flag : Flag) (written : Bytes)
  | operand
  | nothing (error : UsageError)
deriving DecidableEq

namespace Expected

def error? : Expected → Option UsageError
  | .entry => none
  | .argument flag _ => some (.missingArgument flag)
  | .operand => none
  | .nothing error => some error

/-- A word where a flag may stand. -/
def ofWord (operandsEndFlags : Bool) (word : Bytes) : List Entry × Expected :=
  if isOperand word then ([.operand word], if operandsEndFlags then .operand else .entry)
  else
    match after? hyphens word with
    | none => ([], .nothing (.noShortFlags (word.getD 1 0)))
    | some [] => ([], .operand)
    | some body =>
        let (name, text?) := splitArgument body
        match resolveFlag body name with
        | .error error => ([], .nothing error)
        | .ok flag =>
            match flag.takesArgument, text? with
            | false, none => ([.flag flag name []], .entry)
            | false, some _ => ([], .nothing (.unwantedArgument flag))
            | true, some text => ([.flag flag name text], .entry)
            | true, none => ([], .argument flag name)

def step (operandsEndFlags : Bool) : Expected → Bytes → List Entry × Expected
  | .entry, word => ofWord operandsEndFlags word
  | .argument flag written, word => ([.flag flag written word], .entry)
  | .operand, word => ([.operand word], .operand)
  | .nothing error, _ => ([], .nothing error)

/-- What words add one after the other, and what is expected after them. -/
def scan (operandsEndFlags : Bool) : Expected → List Bytes → List Entry × Expected
  | expected, [] => ([], expected)
  | expected, word :: words =>
      let (read, next) := expected.step operandsEndFlags word
      let (more, last) := scan operandsEndFlags next words
      (read ++ more, last)

variable {operandsEndFlags : Bool}

theorem scan_append (expected : Expected) (words more : List Bytes) :
    scan operandsEndFlags expected (words ++ more) =
      ((scan operandsEndFlags expected words).1 ++
        (scan operandsEndFlags (scan operandsEndFlags expected words).2 more).1,
      (scan operandsEndFlags (scan operandsEndFlags expected words).2 more).2) := by
  induction words generalizing expected with
  | nil => rfl
  | cons word words ih => simp [scan, ih]

theorem scan_operand (words : List Bytes) :
    scan operandsEndFlags .operand words = (words.map .operand, .operand) := by
  induction words with
  | nil => rfl
  | cons word words ih => simp [scan, step, ih]

theorem scan_nothing (error : UsageError) (words : List Bytes) :
    scan operandsEndFlags (.nothing error) words = ([], .nothing error) := by
  induction words with
  | nil => rfl
  | cons word words ih => simp [scan, step, ih]

end Expected

open Expected

theorem entries_eq_scan (operandsEndFlags : Bool) (words : List Bytes) :
    entries operandsEndFlags words =
      ((scan operandsEndFlags .entry words).1,
        (scan operandsEndFlags .entry words).2.error?) := by
  fun_induction entries operandsEndFlags words with
  | case1 => rfl
  | _ =>
      simp_all [scan, step, ofWord, error?, operands, Entry.before, UsageError.entries,
        scan_operand, scan_nothing]

/-! ## Words that name flags in full -/

def Flag.withArgument (flag : Flag) (argument : Bytes) : Bytes :=
  flag.written ++ Byte.equals :: argument

theorem Flag.equals_notMem_name (flag : Flag) : Byte.equals ∉ flag.name := by
  cases flag <;> decide

theorem splitArgument_name (flag : Flag) : splitArgument flag.name = (flag.name, none) := by
  cases flag <;> rfl

theorem splitArgument_name_append (flag : Flag) (argument : Bytes) :
    splitArgument (flag.name ++ Byte.equals :: argument) = (flag.name, some argument) := by
  have hname : ∀ b ∈ flag.name, (b != Byte.equals) = true :=
    fun b hb => bne_iff_ne.mpr fun heq => flag.equals_notMem_name (heq ▸ hb)
  simp [splitArgument, List.takeWhile_append_of_pos hname, List.dropWhile_append_of_pos hname]

theorem resolveFlag_name (body : Bytes) (flag : Flag) : resolveFlag body flag.name = .ok flag := by
  simp [resolveFlag]

section FlagWords

variable (flag : Flag) (rest : Bytes)

theorem after?_hyphens_written : after? hyphens (flag.written ++ rest) = some (flag.name ++ rest) :=
  after?_eq_some_iff.mpr (List.append_assoc _ _ _)

theorem isOperand_written : isOperand (flag.written ++ rest) = false := by
  cases flag <;> simp [isOperand, Flag.written, Flag.name, ascii]

theorem Flag.name_append_ne_nil : flag.name ++ rest ≠ [] := by
  cases flag <;> simp [Flag.name, ascii]

end FlagWords

theorem Flag.written_ne_hyphens (flag : Flag) : flag.written ≠ hyphens := by
  cases flag <;> decide

theorem Flag.withArgument_ne_hyphens (flag : Flag) (argument : Bytes) :
    flag.withArgument argument ≠ hyphens := by
  cases flag <;> simp [withArgument, written, name, hyphens, ascii]

namespace Expected

theorem ofWord_written (operandsEndFlags : Bool) (flag : Flag) :
    ofWord operandsEndFlags flag.written =
      if flag.takesArgument then ([], .argument flag flag.name)
      else ([.flag flag flag.name []], .entry) := by
  have hoperand := isOperand_written flag []
  have hbody := after?_hyphens_written flag []
  have hne := flag.name_append_ne_nil []
  rw [List.append_nil] at hoperand hbody
  rw [List.append_nil] at hbody hne
  unfold ofWord
  rw [hoperand, hbody]
  simp only [splitArgument_name, resolveFlag_name]
  cases flag <;> rfl

theorem ofWord_withArgument (operandsEndFlags : Bool) {flag : Flag}
    (h : flag.takesArgument = true) (argument : Bytes) :
    ofWord operandsEndFlags (flag.withArgument argument) =
      ([.flag flag flag.name argument], .entry) := by
  have hoperand := isOperand_written flag (Byte.equals :: argument)
  have hbody := after?_hyphens_written flag (Byte.equals :: argument)
  have hne := flag.name_append_ne_nil (Byte.equals :: argument)
  unfold ofWord Flag.withArgument
  rw [hoperand, hbody]
  simp [splitArgument_name_append, resolveFlag_name, h]

end Expected

theorem isUnknownFlag_written (flag : Flag) : isUnknownFlag flag.written = false := by
  have hbody := after?_hyphens_written flag []
  rw [List.append_nil, List.append_nil] at hbody
  simp [isUnknownFlag, hbody, splitArgument_name]

theorem isUnknownFlag_withArgument (flag : Flag) (argument : Bytes) :
    isUnknownFlag (flag.withArgument argument) = false := by
  have hbody := after?_hyphens_written flag (Byte.equals :: argument)
  simp [isUnknownFlag, Flag.withArgument, hbody, splitArgument_name_append]

/-! ## Words that are accepted -/

theorem findUnknownFlag?_cons (word : Bytes) (words : List Bytes) :
    findUnknownFlag? (word :: words) =
      if word = hyphens then none
      else if isUnknownFlag word = true then some word else findUnknownFlag? words := by
  by_cases hword : word = hyphens
  · simp [findUnknownFlag?, hword]
  · have hchecked : (word != hyphens) = true := bne_iff_ne.mpr hword
    rw [if_neg hword, findUnknownFlag?, List.takeWhile_cons, if_pos hchecked, List.find?_cons]
    cases isUnknownFlag word <;> rfl

theorem findUnknownFlag?_eq_none_iff {before rest : List Bytes} (hbefore : hyphens ∉ before)
    (hrest : ∀ word ∈ rest.head?, word = hyphens) :
    findUnknownFlag? (before ++ rest) = none ↔
      ∀ word ∈ before, isUnknownFlag word = false := by
  have hstop : rest.takeWhile (· != hyphens) = [] := by
    cases rest with
    | nil => rfl
    | cons word rest => simp [hrest word rfl]
  have hchecked : (before ++ rest).takeWhile (· != hyphens) = before := by
    rw [List.takeWhile_append_of_pos, hstop, List.append_nil]
    intro word hword
    exact bne_iff_ne.mpr fun heq => hbefore (heq ▸ hword)
  rw [findUnknownFlag?, hchecked, List.find?_eq_none]
  simp

/-- Words are accepted if no flag is unknown, reading them ends without an error, and what the
entries ask for is complete. -/
theorem parseWords_eq_ok_iff {operandsEndFlags debug : Bool} {words : List Bytes}
    {invocation : Invocation} :
    parseWords operandsEndFlags debug words = .ok invocation ↔
      findUnknownFlag? words = none ∧ (entries operandsEndFlags words).2 = none ∧
        ∃ request,
          (entries operandsEndFlags words).1.foldlM Request.take { options := { debug } } =
            .ok request ∧
          request.finish = .ok invocation := by
  unfold parseWords
  cases findUnknownFlag? words with
  | some word => simp
  | none =>
      simp only [except_bind_eq_ok, true_and]
      cases (entries operandsEndFlags words).2 with
      | some error => simp [throw, throwThe, MonadExceptOf.throw]
      | none => simp

end JsonTable.CommandLine
