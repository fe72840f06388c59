import JsonTable.CommandLine.Run
import JsonTable.Proofs.CommandLine.Abbreviations
import Mathlib.Data.List.Nodup
import Mathlib.Data.List.Perm.Basic

/-!
# Settings in any order

A word that is complete in itself makes one setting: of the format, of the input, or of how to
write the table. Changes to different settings commute, and no word is read as part of another.
So words that make each setting at most once, that of the format among them, ask for the same in
any order.
-/

namespace JsonTable.CommandLine

open Bytes

inductive Setting where
  | format
  | input
  | nullText
  | separator
  | quoting
  | lineSeparator
  | header
  | debug
deriving DecidableEq

/-- What a flag sets. A request for help sets nothing. -/
def Flag.setting? : Flag → Option Setting
  | .format => some .format
  | .formatFile => some .format
  | .nullValue => some .nullText
  | .separator => some .separator
  | .tsv => some .separator
  | .quote => some .quoting
  | .crlf => some .lineSeparator
  | .header => some .header
  | .debug => some .debug
  | .help => none

/-- A word that makes a setting by itself: an operand, or a flag in full with its argument. -/
inductive Sets : Bytes → Setting → Prop where
  | operand {word : Bytes} : isOperand word = true → Sets word .input
  | alone {flag : Flag} {setting : Setting} : flag.takesArgument = false →
      flag.setting? = some setting → Sets flag.written setting
  | argued {flag : Flag} {setting : Setting} {argument : Bytes} : flag.takesArgument = true →
      flag.setting? = some setting →
      (flag = .quote → ∃ quoting, Quoting.ofName? argument = some quoting) →
      Sets (flag.withArgument argument) setting

/-! ## Changes -/

inductive Change where
  | format (source : FormatSource)
  | input (word : Bytes)
  | nullText (text : Bytes)
  | separator (text : Bytes)
  | quoting (quoting : Quoting)
  | lineSeparator
  | header (text : Bytes)
  | debug

def Change.setting : Change → Setting
  | .format _ => .format
  | .input _ => .input
  | .nullText _ => .nullText
  | .separator _ => .separator
  | .quoting _ => .quoting
  | .lineSeparator => .lineSeparator
  | .header _ => .header
  | .debug => .debug

/-- The change that an entry makes. A request for help makes none, nor does an unknown quoting. -/
def Entry.change? : Entry → Option Change
  | .operand word => some (.input word)
  | .flag .format _ text => some (.format (.text text))
  | .flag .formatFile _ name => some (.format (.file name))
  | .flag .nullValue _ text => some (.nullText text)
  | .flag .separator _ text => some (.separator text)
  | .flag .tsv _ _ => some (.separator [Byte.tab])
  | .flag .quote _ word => (Quoting.ofName? word).map .quoting
  | .flag .crlf _ _ => some .lineSeparator
  | .flag .header _ text => some (.header text)
  | .flag .debug _ _ => some .debug
  | .flag .help _ _ => none

namespace Request

def make (request : Request) : Change → Except UsageError Request
  | .format source => request.setFormat source
  | .input word => .ok { request with operands := request.operands ++ [word] }
  | .nullText nullText => .ok { request with options := { request.options with nullText } }
  | .separator separator => .ok (request.setSeparator separator)
  | .quoting quoting => .ok { request with style := { request.style with quoting } }
  | .lineSeparator =>
      .ok { request with
        style := { request.style with
          lineSeparator := [Byte.carriageReturn, Byte.lineFeed] } }
  | .header text => .ok { request with header := some text }
  | .debug => .ok { request with options := { request.options with debug := true } }

theorem take_eq_make {entry : Entry} {change : Change} (h : entry.change? = some change)
    (request : Request) : request.take entry = request.make change := by
  cases entry with
  | operand word =>
      cases h
      rfl
  | flag flag written argument =>
      cases flag with
      | quote =>
          obtain ⟨quoting, hquoting, rfl⟩ := Option.map_eq_some_iff.mp h
          simp only [take, hquoting]
          rfl
      | help => cases h
      | _ =>
          cases h
          rfl

theorem make_comm {a b : Change} (h : a.setting ≠ b.setting) (request : Request) :
    (request.make a >>= fun next => next.make b) =
      request.make b >>= fun next => next.make a := by
  obtain ⟨format?, operands, header, options, style⟩ := request
  -- Different settings are in different fields, and only that of the format can be refused.
  cases a <;> cases b <;> first
    | rfl
    | exact absurd rfl h
    | cases format? <;> rfl

/-- Settings made once each may be made in any order. -/
theorem foldlM_make_perm {changes others : List Change} (hperm : changes.Perm others)
    (hnodup : (changes.map Change.setting).Nodup) (request : Request) :
    changes.foldlM make request = others.foldlM make request := by
  induction hperm generalizing request with
  | nil => rfl
  | cons change _ ih =>
      rw [List.map_cons, List.nodup_cons] at hnodup
      simp only [List.foldlM_cons, ih hnodup.2]
  | swap a b rest =>
      have hne : b.setting ≠ a.setting := by
        intro heq
        simp [heq] at hnodup
      have hcomm := congrArg (· >>= fun next => rest.foldlM make next) (make_comm hne request)
      simpa only [List.foldlM_cons, bind_assoc] using hcomm
  | trans hperm _ ih ih' =>
      have hnodup' := (hperm.map Change.setting).nodup_iff.mp hnodup
      exact (ih hnodup request).trans (ih' hnodup' request)

/-- A change is refused only if it is of a format that is set. -/
theorem exists_make {request : Request} {change : Change}
    (h : change.setting = .format → request.format = none) :
    ∃ next, request.make change = .ok next ∧
      (next.format = none ↔ request.format = none ∧ change.setting ≠ .format) ∧
      next.operands.length = request.operands.length + [change.setting].count .input := by
  cases change with
  | format source =>
      refine ⟨{ request with format := some source }, ?_, ?_, rfl⟩
      · simp only [make, setFormat, h rfl]
      · simp [Change.setting]
  | input word =>
      exact ⟨_, rfl, by simp [Change.setting], by simp [Change.setting]⟩
  | _ => exact ⟨_, rfl, by simp [Change.setting, setSeparator], rfl⟩

theorem exists_foldlM_make {changes : List Change}
    (hnodup : (changes.map Change.setting).Nodup) {request : Request}
    (h : .format ∈ changes.map Change.setting → request.format = none) :
    ∃ last, changes.foldlM make request = .ok last ∧
      (last.format = none ↔ request.format = none ∧ .format ∉ changes.map Change.setting) ∧
      last.operands.length =
        request.operands.length + (changes.map Change.setting).count .input := by
  induction changes generalizing request with
  | nil => exact ⟨request, rfl, by simp, rfl⟩
  | cons change changes ih =>
      rw [List.map_cons, List.nodup_cons] at hnodup
      obtain ⟨next, hnext, hopen, hlength⟩ := @exists_make request change fun hformat =>
        h (hformat ▸ List.mem_cons_self)
      have hlater : .format ∈ changes.map Change.setting → next.format = none := fun hmem =>
        hopen.mpr ⟨h (List.mem_cons_of_mem _ hmem), fun hformat => hnodup.1 (hformat ▸ hmem)⟩
      obtain ⟨last, hlast, hopen', hlength'⟩ := ih hnodup.2 hlater
      refine ⟨last, ?_, ?_, ?_⟩
      · rw [List.foldlM_cons, hnext]
        exact hlast
      · rw [hopen', hopen, List.map_cons, List.mem_cons, not_or, ne_comm, and_assoc]
      · simp only [hlength', hlength, List.map_cons, List.count_cons, List.count_nil]
        omega

theorem exists_finish {request : Request} (hformat : request.format ≠ none)
    (hoperands : request.operands.length ≤ 1) :
    ∃ invocation, request.finish = .ok invocation := by
  obtain ⟨format?, operands, header, options, style⟩ := request
  match format?, operands, hformat, hoperands with
  | some format, [], _, _ => exact ⟨_, rfl⟩
  | some format, [input], _, _ => exact ⟨_, rfl⟩

theorem exists_finish_of_nodup {changes : List Change}
    (hnodup : (changes.map Change.setting).Nodup)
    (hformat : .format ∈ changes.map Change.setting) (options : Options) :
    ∃ invocation, (changes.foldlM make { options } >>= finish) = .ok invocation := by
  obtain ⟨last, hlast, hopen, hlength⟩ := @exists_foldlM_make _ hnodup { options } fun _ => rfl
  have hset : last.format ≠ none := fun hnone => (hopen.mp hnone).2 hformat
  have hinputs : last.operands.length ≤ 1 := by
    rw [hlength]
    simpa using List.nodup_iff_count_le_one.mp hnodup .input
  rw [hlast]
  exact exists_finish hset hinputs

end Request

/-! ## Words that make changes -/

/-- A word that is read as one entry wherever an entry may stand, and the change this makes. -/
structure Makes (word : Bytes) (change : Change) : Prop where
  known : isUnknownFlag word = false
  entry : ∃ entry, Expected.ofWord false word = ([entry], .entry) ∧ entry.change? = some change

theorem after?_hyphens_of_isOperand {word : Bytes} (h : isOperand word = true) :
    after? hyphens word = none := by
  cases hafter : after? hyphens word with
  | none => rfl
  | some rest =>
      obtain rfl := after?_eq_some_iff.mp hafter
      simp [isOperand, hyphens] at h

theorem Flag.exists_change {flag : Flag} {setting : Setting}
    (hsetting : flag.setting? = some setting) {written argument : Bytes}
    (hquoting : flag = .quote → ∃ quoting, Quoting.ofName? argument = some quoting) :
    ∃ change, (Entry.flag flag written argument).change? = some change ∧
      change.setting = setting := by
  cases flag with
  | quote =>
      obtain ⟨quoting, hquoting⟩ := hquoting rfl
      cases hsetting
      exact ⟨.quoting quoting, by simp [Entry.change?, hquoting], rfl⟩
  | _ => cases hsetting <;> exact ⟨_, rfl, rfl⟩

theorem Sets.exists_makes {word : Bytes} {setting : Setting} (h : Sets word setting) :
    ∃ change, Makes word change ∧ change.setting = setting := by
  cases h with
  | operand hword =>
      refine ⟨.input word, ⟨?_, .operand word, ?_, rfl⟩, rfl⟩
      · simp [isUnknownFlag, after?_hyphens_of_isOperand hword]
      · simp [Expected.ofWord, hword]
  | @alone flag _ halone hsetting =>
      have hread := Expected.ofWord_written false flag
      rw [halone, if_neg Bool.false_ne_true] at hread
      obtain ⟨change, hchange, hsets⟩ := Flag.exists_change hsetting fun hquote => by
        simp [hquote, Flag.takesArgument] at halone
      exact ⟨change, ⟨isUnknownFlag_written flag, _, hread, hchange⟩, hsets⟩
  | @argued flag _ argument hargued hsetting hquoting =>
      have hread := Expected.ofWord_withArgument false hargued argument
      obtain ⟨change, hchange, hsets⟩ := Flag.exists_change hsetting hquoting
      exact ⟨change, ⟨isUnknownFlag_withArgument flag argument, _, hread, hchange⟩, hsets⟩

theorem exists_makes_of_sets {words : List Bytes} {settings : List Setting}
    (h : List.Forall₂ Sets words settings) :
    ∃ changes, List.Forall₂ Makes words changes ∧ changes.map Change.setting = settings := by
  induction h with
  | nil => exact ⟨[], .nil, rfl⟩
  | cons hword _ ih =>
      obtain ⟨change, hmakes, hsetting⟩ := hword.exists_makes
      obtain ⟨changes, hmore, hsettings⟩ := ih
      exact ⟨change :: changes, .cons hmakes hmore, by rw [List.map_cons, hsetting, hsettings]⟩

theorem scan_makes {words : List Bytes} {changes : List Change}
    (h : List.Forall₂ Makes words changes) (request : Request) :
    (Expected.scan false .entry words).1.foldlM Request.take request =
        changes.foldlM Request.make request ∧
      (Expected.scan false .entry words).2 = .entry := by
  induction h generalizing request with
  | nil => exact ⟨rfl, rfl⟩
  | @cons word change words changes hword _ ih =>
      obtain ⟨entry, hread, hchange⟩ := hword.entry
      have hscan : Expected.scan false .entry (word :: words) =
          (entry :: (Expected.scan false .entry words).1,
            (Expected.scan false .entry words).2) := by
        simp [Expected.scan, Expected.step, hread]
      rw [hscan]
      refine ⟨?_, (ih request).2⟩
      simp only [List.foldlM_cons, Request.take_eq_make hchange, fun next => (ih next).1]

theorem Makes.ne_hyphens {word : Bytes} {change : Change} (h : Makes word change) :
    word ≠ hyphens := by
  rintro rfl
  have hends : Expected.ofWord false hyphens = ([], .operand) := rfl
  obtain ⟨entry, hread, _⟩ := h.entry
  simp [hends] at hread

theorem findUnknownFlag?_of_makes {words : List Bytes} {changes : List Change}
    (h : List.Forall₂ Makes words changes) : findUnknownFlag? words = none := by
  induction h with
  | nil => rfl
  | cons hword _ ih =>
      rw [findUnknownFlag?_cons, if_neg hword.ne_hyphens, hword.known, ih]
      rfl

theorem parseWords_of_makes {words : List Bytes} {changes : List Change}
    (h : List.Forall₂ Makes words changes) (debug : Bool) :
    parseWords false debug words =
      changes.foldlM Request.make { options := { debug } } >>= Request.finish := by
  obtain ⟨htaken, hlast⟩ := scan_makes h { options := { debug } }
  unfold parseWords
  simp only [findUnknownFlag?_of_makes h, entries_eq_scan, hlast, Expected.error?, htaken]

/--
Words that make each setting at most once, that of the format among them, ask for the same in
any order, and so give the same run.
-/
theorem words_in_any_order_ask_alike {surroundings : Surroundings}
    (hposix : operandsEndFlags surroundings = false) {words others : List Bytes}
    {settings : List Setting} (hwords : List.Forall₂ Sets words settings)
    (hnodup : settings.Nodup) (hformat : .format ∈ settings) (hperm : others.Perm words) :
    ∃ invocation, parse surroundings words = .ok invocation ∧
      parse surroundings others = .ok invocation ∧
      run surroundings others = run surroundings words := by
  obtain ⟨changes, hchanges, rfl⟩ := exists_makes_of_sets hwords
  obtain ⟨changes', hchanges', hperm'⟩ := List.perm_comp_forall₂ hperm hchanges
  obtain ⟨invocation, hfinish⟩ := Request.exists_finish_of_nodup hnodup hformat
    { debug := debugWanted surroundings }
  have hparse : parse surroundings words = .ok invocation := by
    rw [parse, hposix, parseWords_of_makes hchanges, hfinish]
  have hothers : parse surroundings others = .ok invocation := by
    rw [parse, hposix, parseWords_of_makes hchanges', ← hfinish,
      Request.foldlM_make_perm hperm'.symm hnodup]
  exact ⟨invocation, hparse, hothers, by rw [run, run, hparse, hothers]⟩

/-- Five words that make a setting each, and the same words backwards. -/
theorem words_in_any_order_ask_alike_backwards :
    let words :=
      [ascii "-", ascii "--tsv", ascii "--quote=always", ascii "--format=\"a\"", ascii "--debug"]
    ∃ invocation, parse bareSurroundings words = .ok invocation ∧
      parse bareSurroundings words.reverse = .ok invocation ∧
      run bareSurroundings words.reverse = run bareSurroundings words := by
  intro words
  have hwords : List.Forall₂ Sets words [.input, .separator, .quoting, .format, .debug] :=
    .cons (.operand rfl) <|
    .cons (@Sets.alone .tsv _ rfl rfl) <|
    .cons (@Sets.argued .quote _ (ascii "always") rfl rfl fun _ => ⟨.always, rfl⟩) <|
    .cons (@Sets.argued .format _ (ascii "\"a\"") rfl rfl nofun) <|
    .cons (@Sets.alone .debug _ rfl rfl) .nil
  exact words_in_any_order_ask_alike rfl hwords (by decide) (by decide) words.reverse_perm

end JsonTable.CommandLine
