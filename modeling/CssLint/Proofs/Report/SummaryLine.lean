import CssLint.Report.Layout
import Mathlib.Data.List.Basic

/-!
# Counts in printed reports

A report in the plain layout is empty just when nothing was found, and otherwise ends with
a line that counts the findings.  The number of errors can be read back from this line, and
leaving out the warnings that are no errors does not change it.
-/

namespace CssLint.LintResult

/-! ## Counted findings -/

theorem errorCount_pos_iff {result : LintResult} : 0 < result.errorCount ↔
    (∃ warning ∈ result.warnings, warning.severity = .error) ∨ result.invalidOptions ≠ [] := by
  rw [errorCount, Nat.add_pos_iff_pos_or_pos, List.length_pos_iff, List.countP_pos_iff, or_comm]
  simp only [beq_iff_eq]

theorem isClean_iff {result : LintResult} :
    result.isClean = true ↔ result.errorCount = 0 ∧ result.warningCount = 0 := by
  have every : ∀ warning : Warning, warning.severity = .error ∨ warning.severity = .warning := by
    intro warning
    cases warning.severity with
    | error => exact Or.inl rfl
    | warning => exact Or.inr rfl
  rw [isClean, errorCount, warningCount, Bool.and_eq_true, List.isEmpty_iff, List.isEmpty_iff,
    Nat.add_eq_zero_iff, List.length_eq_zero_iff, List.countP_eq_zero, List.countP_eq_zero]
  constructor
  · rintro ⟨noWarning, noFault⟩
    simp [noWarning, noFault]
  · rintro ⟨⟨noFault, noError⟩, noOther⟩
    refine ⟨List.eq_nil_iff_forall_not_mem.2 fun warning member => ?_, noFault⟩
    rcases every warning with serious | slight
    · exact noError warning member (by simp [serious])
    · exact noOther warning member (by simp [slight])

theorem errorCount_errorsOnly (result : LintResult) :
    result.errorsOnly.errorCount = result.errorCount := by
  simp [errorsOnly, errorCount, List.countP_filter]

theorem warningCount_errorsOnly (result : LintResult) : result.errorsOnly.warningCount = 0 := by
  rw [warningCount, errorsOnly, List.countP_filter, List.countP_eq_zero]
  intro warning _ both
  simp only [Bool.and_eq_true, beq_iff_eq] at both
  rw [both.1] at both
  cases both.2

/-- How many errors some results have together. -/
def totalErrors (results : List LintResult) : Nat :=
  (results.map errorCount).foldl (· + ·) 0

/-- How many warnings that are no errors some results have together. -/
def totalWarnings (results : List LintResult) : Nat :=
  (results.map warningCount).foldl (· + ·) 0

theorem totalErrors_pos_iff {results : List LintResult} : 0 < totalErrors results ↔
    ∃ result ∈ results, (∃ warning ∈ result.warnings, warning.severity = .error) ∨
      result.invalidOptions ≠ [] := by
  simp only [totalErrors, ← List.sum_eq_foldl, List.sum_pos_iff_exists_pos_nat, List.mem_map,
    exists_exists_and_eq_and, errorCount_pos_iff]

@[simp] theorem totalErrors_errorsOnly (results : List LintResult) :
    totalErrors (results.map errorsOnly) = totalErrors results := by
  rw [totalErrors, List.map_map, totalErrors]
  exact congrArg (List.foldl (· + ·) 0)
    (List.map_congr_left fun result _ => errorCount_errorsOnly result)

@[simp] theorem totalWarnings_errorsOnly (results : List LintResult) :
    totalWarnings (results.map errorsOnly) = 0 := by
  rw [totalWarnings, List.map_map, ← List.sum_eq_foldl, List.sum_eq_zero_iff_forall_eq_nat]
  intro count member
  obtain ⟨result, _, rfl⟩ := List.mem_map.1 member
  exact warningCount_errorsOnly result

/-! ## Printed reports -/

theorem plain_eq (results : List LintResult) :
    plain results = String.join (results.map plainSection) ++
      summary (totalErrors results) (totalWarnings results) := rfl

theorem summary_eq_empty_iff {errors warnings : Nat} :
    summary errors warnings = "" ↔ errors + warnings = 0 := by
  rw [summary]
  split
  · rename_i nothing
    exact iff_of_true rfl nothing
  · rename_i something
    refine iff_of_false (fun same => ?_) something
    have characters := congrArg String.toList same
    simp at characters

/-- A plain report is empty just when there is nothing to count. -/
theorem plain_eq_empty_iff {results : List LintResult} :
    plain results = "" ↔ totalErrors results + totalWarnings results = 0 := by
  rw [plain_eq, String.append_eq_empty_iff, summary_eq_empty_iff, and_iff_right_of_imp]
  intro nothing
  rw [Nat.add_eq_zero_iff, totalErrors, totalWarnings, ← List.sum_eq_foldl, ← List.sum_eq_foldl,
    List.sum_eq_zero_iff_forall_eq_nat, List.sum_eq_zero_iff_forall_eq_nat] at nothing
  have clean : ∀ result ∈ results, plainSection result = "" := by
    intro result member
    have isClean : result.isClean = true := isClean_iff.2
      ⟨nothing.1 _ (List.mem_map_of_mem member), nothing.2 _ (List.mem_map_of_mem member)⟩
    rw [plainSection, if_pos isClean]
  rw [← String.toList_eq_nil_iff, String.toList_join, List.flatMap_eq_nil_iff]
  intro text member
  obtain ⟨result, inResults, rfl⟩ := List.mem_map.1 member
  rw [clean result inResults, String.toList_empty]

/-- The number of errors that the last line of a plain report counts, behind its parenthesis; zero if
nothing is counted. -/
def printedErrors (report : String) : Nat :=
  let counts := (report.toList.reverse.takeWhile fun c => c != '(').reverse
  Nat.ofDigitChars 10 (counts.takeWhile Char.isDigit) 0

theorem not_mem_toDigits {c : Char} (noDigit : c.isDigit = false) (number : Nat) :
    c ∉ Nat.toDigits 10 number := by
  intro member
  rw [Nat.isDigit_of_mem_toDigits (by decide) (by decide) member] at noDigit
  cases noDigit

/-- Behind the last parenthesis of a counting line stands the number of errors. -/
theorem exists_summary {errors warnings : Nat} (something : errors + warnings ≠ 0) :
    ∃ front behind, '(' ∉ behind ∧ (summary errors warnings).toList =
      front ++ '(' :: (Nat.toDigits 10 errors ++ ' ' :: behind) := by
  have digits := not_mem_toDigits (by decide : '('.isDigit = false)
  rw [summary, if_neg something]
  refine ⟨("\n" ++ Emphasis.bold.first ++ errorMark ++ " " ++
      counted (errors + warnings) "problem" ++ " ").toList,
    ("error" ++ (if errors = 1 then "" else "s") ++ ", " ++ counted warnings "warning" ++ ")" ++
      Emphasis.bold.last ++ "\n").toList, ?_, ?_⟩
  · have plurals : ∀ count : Nat, '(' ∉ (if count = 1 then "" else "s").toList := by
      intro count
      split <;> decide
    simp [counted, Emphasis.bold, plurals, digits]
  · simp [counted, Emphasis.apply, Emphasis.bold]

theorem printedErrors_append {front behind : List Char} (last : '(' ∉ behind) (number : Nat)
    {report : String} (ends : report.toList =
      front ++ '(' :: (Nat.toDigits 10 number ++ ' ' :: behind)) :
    printedErrors report = number := by
  have digits : ∀ c ∈ Nat.toDigits 10 number, c.isDigit = true := fun c member =>
    Nat.isDigit_of_mem_toDigits (by decide) (by decide) member
  have noParenthesis : ∀ c ∈ Nat.toDigits 10 number ++ ' ' :: behind, (c != '(') = true := by
    intro c member
    rw [bne_iff_ne]
    rintro rfl
    rcases List.mem_append.1 member with inNumber | later
    · exact not_mem_toDigits (by decide) number inNumber
    · exact last ((List.mem_cons.1 later).resolve_left (by decide))
  have counts : (report.toList.reverse.takeWhile fun c => c != '(').reverse =
      Nat.toDigits 10 number ++ ' ' :: behind := by
    rw [ends, List.reverse_append, List.reverse_cons, List.append_assoc, List.takeWhile_append_of_pos
      fun c member => noParenthesis c (List.mem_reverse.1 member), List.singleton_append,
      List.takeWhile_cons_of_neg (by simp), List.append_nil, List.reverse_reverse]
  rw [printedErrors]
  simp only [counts]
  rw [List.takeWhile_append_of_pos digits, List.takeWhile_cons_of_neg (by decide), List.append_nil,
    Nat.ofDigitChars_toDigits (by decide) (by decide)]

/-- The number of errors in a plain report is that of the results. -/
theorem printedErrors_plain (results : List LintResult) :
    printedErrors (plain results) = totalErrors results := by
  by_cases nothing : totalErrors results + totalWarnings results = 0
  · rw [plain_eq_empty_iff.2 nothing, (Nat.add_eq_zero_iff.1 nothing).1]
    rfl
  · obtain ⟨front, behind, last, ends⟩ := exists_summary nothing
    have whole : (plain results).toList =
        ((String.join (results.map plainSection)).toList ++ front) ++
          '(' :: (Nat.toDigits 10 (totalErrors results) ++ ' ' :: behind) := by
      rw [plain_eq, String.toList_append, ends, List.append_assoc]
    exact printedErrors_append last _ whole

end CssLint.LintResult
