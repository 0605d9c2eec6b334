import CssLint.CommandLine.Run
import CssLint.Proofs.CommandLine.QuietOption
import CssLint.Proofs.Report.SummaryLine
import CssLint.Proofs.Rule.Isolation

/-!
# The status of a run and its report

The status of a run says whether something cannot be read, and otherwise whether an error
was found.  The report counts the same errors, and a quiet run leaves out other findings
without any effect on the two.
-/

namespace CssLint

open Options

/-! ## Results -/

namespace LintResult

/-- An error was found: a warning that is one, or a fault of the configuration. -/
def HasError (result : LintResult) : Prop :=
  (∃ warning ∈ result.warnings, warning.severity = .error) ∨ result.invalidOptions ≠ []

theorem isConsistent_checkRule (sheet : Stylesheet) {result : LintResult}
    (isConsistent : result.IsConsistent) (name : String) (setting : RuleSetting) :
    (checkRule sheet result name setting).IsConsistent := by
  unfold checkRule
  split
  · rename_i rule found
    obtain rfl : rule = ⟨Rule.maxCompoundsName, Rule.maxCompounds Rule.grammar Rule.resolver⟩ :=
      List.mem_singleton.1 (List.mem_of_find?_eq_some found)
    dsimp only [Rule.maxCompounds]
    split
    · exact isConsistent_invalidOption result _
    · exact isConsistent.warnAll _
  · exact isConsistent_invalidOption result _

/-- A checked style sheet has failed just when an error was found in it or in the configuration. -/
theorem isConsistent_lint (config : Config) (css : List Char) (source : Option String) :
    (lint config css source).IsConsistent := by
  have run : ∀ (rules : List (String × RuleSetting)) {result : LintResult},
      result.IsConsistent → (rules.foldl (fun result rule =>
        checkRule (Stylesheet.ofText css) result rule.1 rule.2) result).IsConsistent := by
    intro rules
    induction rules with
    | nil => exact fun isConsistent => isConsistent
    | cons rule rules inductionHypothesis =>
        intro result isConsistent
        exact inductionHypothesis (isConsistent_checkRule _ isConsistent rule.1 rule.2)
  exact run config.rules (isConsistent_empty source)

end LintResult

namespace Options

/-! ## What cannot be read -/

/-- The path of the file with the configuration of a run, if it has one. -/
def configPath? (options : Options) (surroundings : Surroundings) : Option String :=
  options.config.or ((configPaths surroundings.enclosing).find? surroundings.isFile)

/-- Something that a run has to read cannot be read, or is no configuration. -/
inductive CannotRead (options : Options) (surroundings : Surroundings) : Prop
  | config {path : String} (named : options.configPath? surroundings = some path)
      (unread : surroundings.text? path = none) : CannotRead options surroundings
  | invalid {path text : String} {fault : ConfigError}
      (named : options.configPath? surroundings = some path)
      (read : surroundings.text? path = some text) (invalid : Config.ofText text = .error fault) :
      CannotRead options surroundings
  | standardInput (noFiles : options.files = []) (unread : surroundings.standardInput = none) :
      CannotRead options surroundings
  | file {path : String} (member : path ∈ options.files)
      (unread : surroundings.text? path = none) : CannotRead options surroundings

theorem baseConfig_eq (options : Options) (surroundings : Surroundings) :
    options.baseConfig surroundings =
      match options.configPath? surroundings with
      | some path => configOfFile surroundings path
      | none => .ok .empty := by
  rw [baseConfig, configPath?]
  cases options.config with
  | some path => rfl
  | none => rfl

theorem exists_baseConfig_eq_error_iff {options : Options} {surroundings : Surroundings} :
    (∃ fault, options.baseConfig surroundings = .error fault) ↔
      ∃ path, options.configPath? surroundings = some path ∧
        (surroundings.text? path = none ∨
          ∃ text fault, surroundings.text? path = some text ∧
            Config.ofText text = .error fault) := by
  rw [baseConfig_eq]
  cases options.configPath? surroundings with
  | none => simp
  | some path =>
      simp only [configOfFile, Option.some.injEq, exists_eq_left']
      cases surroundings.text? path with
      | none => simp
      | some text => simp

theorem mapM_eq_none_iff {α β : Type} {read : α → Option β} {items : List α} :
    items.mapM read = none ↔ ∃ item ∈ items, read item = none := by
  induction items with
  | nil => simp
  | cons item items inductionHypothesis =>
      rw [List.mapM_cons]
      cases found : read item with
      | none => simp [found]
      | some value =>
          cases rest : items.mapM read with
          | none => simp [found, inductionHypothesis.1 rest]
          | some values =>
              have noneLeft : ¬∃ item ∈ items, read item = none :=
                fun some_ => nomatch rest.symm.trans (inductionHypothesis.2 some_)
              simpa [found] using noneLeft

theorem inputs?_eq_none_iff {options : Options} {surroundings : Surroundings} :
    options.inputs? surroundings = none ↔
      (options.files = [] ∧ surroundings.standardInput = none) ∨
        ∃ path ∈ options.files, surroundings.text? path = none := by
  rw [inputs?]
  split
  · rename_i noFiles
    rw [List.isEmpty_iff] at noFiles
    simp [noFiles]
  · rename_i someFile
    rw [List.isEmpty_iff] at someFile
    simp [someFile, mapM_eq_none_iff]

/-- A run has no results just when something cannot be read. -/
theorem results?_eq_none_iff {options : Options} {surroundings : Surroundings} :
    options.results? surroundings = none ↔ options.CannotRead surroundings := by
  have faults : options.results? surroundings = none ↔
      (∃ fault, options.baseConfig surroundings = .error fault) ∨
        options.inputs? surroundings = none := by
    rw [results?, effectiveConfig]
    cases options.baseConfig surroundings with
    | error fault => simp [Except.map]
    | ok config => simp [Except.map]
  rw [faults, exists_baseConfig_eq_error_iff, inputs?_eq_none_iff]
  constructor
  · rintro (⟨path, named, unread | ⟨text, fault, read, invalid⟩⟩ |
      ⟨noFiles, unread⟩ | ⟨path, member, unread⟩)
    · exact .config named unread
    · exact .invalid named read invalid
    · exact .standardInput noFiles unread
    · exact .file member unread
  · rintro (⟨named, unread⟩ | ⟨named, read, invalid⟩ | ⟨noFiles, unread⟩ | ⟨member, unread⟩)
    · exact Or.inl ⟨_, named, Or.inl unread⟩
    · exact Or.inl ⟨_, named, Or.inr ⟨_, _, read, invalid⟩⟩
    · exact Or.inr (Or.inl ⟨noFiles, unread⟩)
    · exact Or.inr (Or.inr ⟨_, member, unread⟩)

/-! ## Reports -/

open LintResult

theorem isConsistent_of_mem_results {options : Options} {surroundings : Surroundings}
    {results : List LintResult} (found : options.results? surroundings = some results) :
    ∀ result ∈ results, result.IsConsistent := by
  rw [results?] at found
  split at found
  · cases found
  · obtain ⟨inputs, _, rfl⟩ := Option.map_eq_some_iff.1 found
    intro result member
    obtain ⟨⟨source, text⟩, _, rfl⟩ := List.mem_map.1 member
    exact isConsistent_lint _ _ _

/-- A run over results has failed just when there are errors to count. -/
theorem status_report {results : List LintResult}
    (consistent : ∀ result ∈ results, result.IsConsistent) (options : Options) :
    (options.report results).status = if 0 < totalErrors results then .failed else .clean := by
  have same : results.any LintResult.errored = decide (0 < totalErrors results) := by
    rw [Bool.eq_iff_iff, decide_eq_true_iff, List.any_eq_true, totalErrors_pos_iff]
    exact exists_congr fun result => and_congr_right fun member => consistent result member
  rw [report, same]
  simp only [decide_eq_true_eq]

/-- A quiet run leaves out findings that are no errors. -/
def shown (options : Options) (results : List LintResult) : List LintResult :=
  if options.quiet then results.map errorsOnly else results

theorem totalErrors_shown (options : Options) (results : List LintResult) :
    totalErrors (options.shown results) = totalErrors results := by
  rw [shown]
  split
  · exact totalErrors_errorsOnly results
  · rfl

theorem output_report {options : Options} (plain_ : options.layout ≠ some .json)
    (results : List LintResult) :
    (options.report results).output = plain (options.shown results) := by
  have layout : options.layout.getD .plain = .plain := by
    cases given : options.layout with
    | none => rfl
    | some layout =>
        cases layout with
        | plain => rfl
        | json => exact absurd given plain_
  rw [report, layout, shown]
  rfl

end Options

/-! ## Runs -/

open LintResult

theorem runArguments_eq {arguments : List String} {options : Options}
    (accepted : ofArguments arguments = .ok options) (surroundings : Surroundings) :
    runArguments arguments surroundings = options.run surroundings := by
  rw [runArguments, accepted]

theorem run_of_cannotRead {options : Options} {surroundings : Surroundings}
    (cannotRead : options.CannotRead surroundings) :
    options.run surroundings = ⟨.unreadable, ""⟩ := by
  rw [run, results?_eq_none_iff.2 cannotRead]

/-- The same run, quiet or not, has the same status and counts the same errors; when it is quiet it
prints something only if there are errors. -/
theorem report_quiet {options : Options} {results : List LintResult}
    (consistent : ∀ result ∈ results, result.IsConsistent) (quiet : Bool) :
    let outcome := options.report results
    let other := { options with quiet := quiet }.report results
    other.status = outcome.status ∧
      (options.layout ≠ some .json →
        (0 < printedErrors outcome.output ↔ outcome.status = .failed) ∧
        printedErrors other.output = printedErrors outcome.output ∧
        (quiet = true → (other.output = "" ↔ outcome.status = .clean))) := by
  intro outcome other
  have status : outcome.status = if 0 < totalErrors results then .failed else .clean :=
    status_report consistent options
  refine ⟨(status_report consistent _).trans status.symm, fun plain_ => ?_⟩
  have output : outcome.output = plain (options.shown results) := output_report plain_ results
  have plainOther : { options with quiet := quiet }.layout ≠ some .json := plain_
  have others : other.output = plain ({ options with quiet := quiet }.shown results) :=
    output_report plainOther results
  have counted : ∀ options : Options,
      printedErrors (plain (options.shown results)) = totalErrors results := fun options =>
    (printedErrors_plain _).trans (totalErrors_shown options results)
  rw [output, others, counted, counted, status]
  refine ⟨by split <;> simp_all, rfl, fun isQuiet => ?_⟩
  have onlyErrors : { options with quiet := quiet }.shown results = results.map errorsOnly :=
    if_pos isQuiet
  rw [onlyErrors, plain_eq_empty_iff, totalErrors_errorsOnly, totalWarnings_errorsOnly]
  split
  · rename_i some_
    exact iff_of_false (Nat.ne_of_gt some_) (by simp)
  · rename_i none_
    exact iff_of_true (Nat.eq_zero_of_not_pos none_) rfl

/-- Where arguments ask for a run, its status is 1 and nothing is printed if something cannot be read.
Otherwise the status is 2 if an error was found and 0 if not.  The same arguments with and without
`--quiet` give the same status, and their reports count the same errors. -/
theorem runArguments_status {arguments : List String} {options : Options}
    (accepted : ofArguments arguments = .ok options) (surroundings : Surroundings) :
    let outcome := runArguments arguments surroundings
    (options.CannotRead surroundings → outcome.status.code = 1 ∧ outcome.output = "") ∧
    (¬options.CannotRead surroundings → ∃ results,
      options.results? surroundings = some results ∧
      (outcome.status.code = 2 ↔ ∃ result ∈ results, result.HasError) ∧
      (outcome.status.code = 0 ↔ ¬∃ result ∈ results, result.HasError) ∧
      ∀ others quiet, ofArguments others = .ok { options with quiet := quiet } →
        let other := runArguments others surroundings
        other.status = outcome.status ∧
        (options.layout ≠ some .json →
          (0 < LintResult.printedErrors outcome.output ↔ outcome.status.code = 2) ∧
          LintResult.printedErrors other.output = LintResult.printedErrors outcome.output ∧
          (quiet = true → (other.output = "" ↔ outcome.status.code = 0)))) ∧
    (options.quiet = false →
      ofArguments ("--quiet" :: arguments) = .ok { options with quiet := true }) := by
  intro outcome
  have ran : outcome = options.run surroundings := runArguments_eq accepted surroundings
  refine ⟨fun cannotRead => ?_, fun canRead => ?_, ofArguments_quiet accepted⟩
  · rw [ran, run_of_cannotRead cannotRead]
    exact ⟨rfl, rfl⟩
  · obtain ⟨results, found⟩ := Option.ne_none_iff_exists'.1
      fun none_ => canRead (results?_eq_none_iff.1 none_)
    have reported : outcome = options.report results := by rw [ran, run, found]
    have consistent := isConsistent_of_mem_results found
    have failed : outcome.status = if 0 < totalErrors results then .failed else .clean := by
      rw [reported]
      exact status_report consistent options
    have hasError : 0 < totalErrors results ↔ ∃ result ∈ results, result.HasError :=
      totalErrors_pos_iff
    have codeFailed : outcome.status.code = 2 ↔ outcome.status = .failed := by
      cases outcome.status <;> simp [Status.code]
    have codeClean : outcome.status.code = 0 ↔ outcome.status = .clean := by
      cases outcome.status <;> simp [Status.code]
    refine ⟨results, found, ?_, ?_, fun others quiet acceptedOther => ?_⟩
    · rw [codeFailed, failed, ← hasError]
      split <;> simp_all
    · rw [codeClean, failed, ← hasError]
      split <;> simp_all
    rw [codeFailed, codeClean]
    have sameResults : { options with quiet := quiet }.results? surroundings = some results :=
      found
    have other : runArguments others surroundings =
        { options with quiet := quiet }.report results := by
      rw [runArguments_eq acceptedOther, run, sameResults]
    rw [other, reported]
    exact report_quiet consistent quiet

/-- A working directory without a configuration, with one style sheet that has too many compound
selectors and one that has not. -/
private def twoSheets : Surroundings where
  enclosing := 0
  isFile _ := false
  text? path := [("a.css", "a b \x7b\x7d"), ("c.css", "c \x7b\x7d")].lookup path
  standardInput := none

theorem runArguments_status_twoSheets :
    let arguments := ["--max", "1", "a.css", "c.css"]
    let options : Options := ⟨["a.css", "c.css"], none, some 1, none, false, none, 0⟩
    let outcome := runArguments arguments twoSheets
    let quiet := runArguments ("--quiet" :: arguments) twoSheets
    ofArguments arguments = .ok options ∧ ¬options.CannotRead twoSheets ∧
      outcome.status.code = 2 ∧ quiet.status = outcome.status ∧
      0 < printedErrors outcome.output ∧
      printedErrors quiet.output = printedErrors outcome.output ∧ quiet.output ≠ "" := by
  intro arguments options outcome quiet
  have accepted : ofArguments arguments = .ok options := by decide +kernel
  have failed : outcome.status = .failed := by decide +kernel
  have canRead : ¬options.CannotRead twoSheets := by
    intro cannotRead
    have unreadable : outcome.status = .unreadable := by
      rw [show outcome = options.run twoSheets from runArguments_eq accepted twoSheets,
        run_of_cannotRead cannotRead]
    rw [failed] at unreadable
    cases unreadable
  obtain ⟨-, readable, hushed⟩ := runArguments_status accepted twoSheets
  obtain ⟨results, -, -, -, both⟩ := readable canRead
  obtain ⟨same, counted⟩ := both _ true (hushed rfl)
  obtain ⟨positive, sameCount, silent⟩ := counted (by decide)
  have code : outcome.status.code = 2 := by rw [failed]; rfl
  refine ⟨accepted, canRead, code, same, positive.2 code, sameCount, fun nothing => ?_⟩
  have clean : outcome.status.code = 0 := (silent rfl).1 nothing
  rw [failed] at clean
  cases clean

end CssLint
