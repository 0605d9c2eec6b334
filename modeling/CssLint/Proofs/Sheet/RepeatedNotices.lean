import CssLint.Sheet.Notice
import Mathlib.Data.List.Induction

/-!
# Notices that are given again

A log is told of notices, and now and then to forget all of them.  It knows notices by their
lines, so it lets one through when none with the same line has been given since.  Different
notices have the same line when the component of one of them is the component of the other
one with a bracket, a space and the beginning of its message; notices of one component
always have different lines.
-/

namespace CssLint

/-! ## Lines -/

namespace Notice

/-- The component of the longer notice goes on with what the message of the shorter one begins
with. -/
def Extends (longer shorter : Notice) : Prop :=
  ∃ between, longer.component = shorter.component ++ "] " ++ between ∧
    shorter.message = between ++ "] " ++ longer.message

theorem Extends.line_eq {longer shorter : Notice} (extends_ : longer.Extends shorter) :
    longer.line = shorter.line := by
  obtain ⟨between, component, message⟩ := extends_
  rw [line, line, component, message]
  simp only [String.append_assoc]

theorem Extends.component_ne {longer shorter : Notice} (extends_ : longer.Extends shorter) :
    longer.component ≠ shorter.component := by
  obtain ⟨between, component, _⟩ := extends_
  intro same
  have length := congrArg String.length (same.symm.trans component)
  have mark : "] ".length = 2 := rfl
  rw [String.length_append, String.length_append, mark] at length
  omega

/-- A bracket and a space that stand behind a bracket and a space stand apart from them. -/
private theorem behind_mark {rest right behind : List Char}
    (same : ']' :: ' ' :: right = rest ++ ']' :: ' ' :: behind) :
    rest = [] ∧ right = behind ∨
      ∃ between, rest = ']' :: ' ' :: between ∧ right = between ++ ']' :: ' ' :: behind := by
  cases rest with
  | nil =>
      simp only [List.nil_append, List.cons.injEq, true_and] at same
      exact .inl ⟨rfl, same⟩
  | cons c rest =>
      cases rest with
      | nil => simp at same
      | cons d between =>
          simp only [List.cons_append, List.cons.injEq] at same
          obtain ⟨rfl, rfl, same⟩ := same
          exact .inr ⟨between, rfl, same⟩

private theorem eq_or_extends {longer shorter : Notice} {rest : List Char}
    (component : longer.component.toList = shorter.component.toList ++ rest)
    (behind : ']' :: ' ' :: shorter.message.toList =
      rest ++ ']' :: ' ' :: longer.message.toList) :
    longer = shorter ∨ longer.Extends shorter := by
  have mark : "] ".toList = [']', ' '] := rfl
  -- Either the two components end at the same place, or one of them goes on with the mark.
  cases behind_mark behind with
  | inl ends =>
      obtain ⟨rfl, message⟩ := ends
      rw [List.append_nil, String.toList_inj] at component
      rw [String.toList_inj] at message
      left
      obtain ⟨_, _⟩ := longer
      obtain ⟨_, _⟩ := shorter
      cases component
      cases message
      rfl
  | inr later =>
      obtain ⟨between, rfl, message⟩ := later
      refine .inr ⟨String.ofList between, ?_, ?_⟩
      · rw [← String.toList_inj, component, String.toList_append, String.toList_append, mark,
          String.toList_ofList, List.append_assoc]
        rfl
      · rw [← String.toList_inj, message, String.toList_append, String.toList_append, mark,
          String.toList_ofList, List.append_assoc]
        rfl

theorem line_eq_iff {first second : Notice} :
    first.line = second.line ↔ first = second ∨ first.Extends second ∨ second.Extends first := by
  constructor
  · intro same
    have characters : first.component.toList ++ ']' :: ' ' :: first.message.toList =
        second.component.toList ++ ']' :: ' ' :: second.message.toList := by
      have whole := congrArg String.toList same
      simpa [line, List.append_assoc] using whole
    cases List.append_eq_append_iff.1 characters with
    | inl longer =>
        obtain ⟨rest, component, behind⟩ := longer
        exact (eq_or_extends component behind).imp Eq.symm .inr
    | inr shorter =>
        obtain ⟨rest, component, behind⟩ := shorter
        exact (eq_or_extends component behind).imp id .inl
  · intro alike_
    rcases alike_ with same | extends_ | extends_
    · rw [same]
    · exact extends_.line_eq
    · exact extends_.line_eq.symm

end Notice

/-! ## Calls -/

/-- What a log is told: a notice, or to forget all of them. -/
inductive LogCall
  | notice (notice : Notice)
  | clear

/-- The notice is given by one of the calls, and no later call clears the log. -/
def IsGiven (calls : List LogCall) (notice : Notice) : Prop :=
  ∃ front back, calls = front ++ .notice notice :: back ∧ LogCall.clear ∉ back

/-- A call that stands in calls and one more is the last of them or stands in those before. -/
private theorem concat_cases {calls front back : List LogCall} {last call : LogCall}
    (split : calls ++ [last] = front ++ call :: back) :
    last = call ∧ back = [] ∨
      ∃ earlier, back = earlier ++ [last] ∧ calls = front ++ call :: earlier := by
  cases back using List.reverseRecOn with
  | nil =>
      have ends := (List.append_inj' split rfl).2
      exact .inl ⟨(List.cons.inj ends).1, rfl⟩
  | append_singleton earlier other =>
      rw [← List.cons_append, ← List.append_assoc] at split
      obtain ⟨before, ends⟩ := List.append_inj' split rfl
      exact .inr ⟨earlier, by rw [ends], before⟩

theorem isGiven_concat_notice {calls : List LogCall} {last notice : Notice} :
    IsGiven (calls ++ [.notice last]) notice ↔ last = notice ∨ IsGiven calls notice := by
  constructor
  · intro ⟨front, back, split, uncleared⟩
    cases concat_cases split with
    | inl ends => exact .inl (LogCall.notice.inj ends.1)
    | inr before =>
        obtain ⟨earlier, rfl, within⟩ := before
        exact .inr ⟨front, earlier, within, fun member =>
          uncleared (List.mem_append_left _ member)⟩
  · intro given
    cases given with
    | inl same => exact ⟨calls, [], same ▸ rfl, List.not_mem_nil⟩
    | inr earlier =>
        obtain ⟨front, back, rfl, uncleared⟩ := earlier
        refine ⟨front, back ++ [.notice last], ?_, ?_⟩
        · rw [List.append_assoc, List.cons_append]
        · simpa using uncleared

theorem not_isGiven_concat_clear {calls : List LogCall} {notice : Notice} :
    ¬ IsGiven (calls ++ [.clear]) notice := by
  intro ⟨front, back, split, uncleared⟩
  cases concat_cases split with
  | inl ends => cases ends.1
  | inr before =>
      obtain ⟨earlier, rfl, _⟩ := before
      exact uncleared (List.mem_append_right _ (List.mem_singleton_self _))

namespace NoticeLog

/-- What the log lets through at a call, and the log behind it. -/
def told (log : NoticeLog) : LogCall → List Notice × NoticeLog
  | .notice notice => log.pass [notice]
  | .clear => ([], empty)

/-- The log behind calls. -/
def behind (log : NoticeLog) (calls : List LogCall) : NoticeLog :=
  calls.foldl (fun log call => (log.told call).2) log

/-- What the log lets through at each of the calls. -/
def answers (log : NoticeLog) : List LogCall → List (List Notice)
  | [] => []
  | call :: calls => (log.told call).1 :: (log.told call).2.answers calls

theorem getElem?_answers (log : NoticeLog) (front back : List LogCall) (call : LogCall) :
    (log.answers (front ++ call :: back))[front.length]? =
      some ((log.behind front).told call).1 := by
  induction front generalizing log with
  | nil => rfl
  | cons first front inductionHypothesis => exact inductionHypothesis _

theorem told_notice (log : NoticeLog) (notice : Notice) :
    log.told (.notice notice) =
      (if log.admits notice then [notice] else [], log.record notice) := rfl

theorem mem_lines_record {log : NoticeLog} {notice : Notice} {text : String} :
    text ∈ (log.record notice).lines ↔ notice.line = text ∨ text ∈ log.lines := by
  rw [record, admits]
  by_cases known : notice.line ∈ log.lines
  · have kept : notice.line = text → text ∈ log.lines := fun same => same ▸ known
    simp [known, or_iff_right_of_imp kept]
  · simp [known, eq_comm]

/-- A log holds the lines of the notices that have been given since it was cleared. -/
theorem mem_lines_behind {calls : List LogCall} {text : String} :
    text ∈ (empty.behind calls).lines ↔ ∃ notice, IsGiven calls notice ∧ notice.line = text := by
  induction calls using List.reverseRecOn with
  | nil =>
      have nothing : ∀ notice, ¬ IsGiven [] notice := by
        intro notice ⟨front, back, split, _⟩
        simp at split
      simp [behind, empty, nothing]
  | append_singleton calls call inductionHypothesis =>
      have last : empty.behind (calls ++ [call]) = ((empty.behind calls).told call).2 := by
        rw [behind, List.foldl_append]
        rfl
      rw [last]
      cases call with
      | notice notice =>
          rw [told_notice, mem_lines_record, inductionHypothesis]
          simp only [isGiven_concat_notice, or_and_right, exists_or, exists_eq_left']
      | clear => simp [told, empty, not_isGiven_concat_clear]

theorem admits_behind {calls : List LogCall} {notice : Notice} :
    (empty.behind calls).admits notice = true ↔
      ∀ earlier, IsGiven calls earlier → earlier.line ≠ notice.line := by
  rw [admits, Bool.not_eq_true', List.contains_eq_mem, decide_eq_false_iff_not, mem_lines_behind]
  simp only [not_exists, not_and, ne_eq]

end NoticeLog

/-- A log that starts empty lets a notice through when neither it nor one that extends it or that it
extends has been given since the log was cleared. So among notices of one component, it lets those
through that have not been given. -/
theorem NoticeLog.answers_iff (front back : List LogCall) (notice : Notice) :
    let answer := (NoticeLog.empty.answers (front ++ .notice notice :: back))[front.length]?
    (answer = some [notice] ∨ answer = some []) ∧
      (answer = some [notice] ↔ ¬ IsGiven front notice ∧
        ∀ earlier, IsGiven front earlier → ¬ earlier.Extends notice ∧ ¬ notice.Extends earlier) ∧
      ((∀ earlier, IsGiven front earlier → earlier.component = notice.component) →
        (answer = some [notice] ↔ ¬ IsGiven front notice)) := by
  intro answer
  have told : answer =
      some (if (NoticeLog.empty.behind front).admits notice then [notice] else []) :=
    NoticeLog.getElem?_answers _ front back _
  have passes : answer = some [notice] ↔ (NoticeLog.empty.behind front).admits notice = true := by
    rw [told]
    split <;> simp [*]
  have exactly : answer = some [notice] ↔ ¬ IsGiven front notice ∧
      ∀ earlier, IsGiven front earlier → ¬ earlier.Extends notice ∧ ¬ notice.Extends earlier := by
    rw [passes, NoticeLog.admits_behind]
    simp only [ne_eq, Notice.line_eq_iff, not_or]
    constructor
    · intro different
      exact ⟨fun given => (different notice given).1 rfl,
        fun earlier given => (different earlier given).2⟩
    · intro ⟨notGiven, apart⟩ earlier given
      exact ⟨fun same => notGiven (same ▸ given), apart earlier given⟩
  refine ⟨?_, exactly, fun oneComponent => ?_⟩
  · rw [told]
    split <;> simp
  · rw [exactly, and_iff_left_iff_imp]
    intro _ earlier given
    have same := oneComponent earlier given
    exact ⟨fun extends_ => extends_.component_ne same,
      fun extends_ => extends_.component_ne same.symm⟩

/-- A notice that was given before the log was cleared, and another one since. -/
theorem NoticeLog.answers_iff_cleared :
    let front : List LogCall :=
      [.notice .unclosedBlock, .clear, .notice .unmatchedBrace]
    (∀ earlier, IsGiven front earlier → earlier.component = Notice.unclosedBlock.component) ∧
      ¬ IsGiven front .unclosedBlock ∧
      (NoticeLog.empty.answers (front ++ [.notice .unclosedBlock]))[3]? =
        some [.unclosedBlock] := by
  intro front
  have given : ∀ earlier, IsGiven front earlier ↔ Notice.unmatchedBrace = earlier := by
    intro earlier
    have last : front = ([.notice .unclosedBlock] ++ [.clear]) ++ [.notice .unmatchedBrace] := rfl
    rw [last, isGiven_concat_notice, or_iff_left not_isGiven_concat_clear]
  have oneComponent : ∀ earlier, IsGiven front earlier →
      earlier.component = Notice.unclosedBlock.component := by
    intro earlier isGiven
    rw [← (given earlier).1 isGiven]
    rfl
  have notGiven : ¬ IsGiven front .unclosedBlock := by
    rw [given]
    decide
  exact ⟨oneComponent, notGiven,
    ((NoticeLog.answers_iff front [] .unclosedBlock).2.2 oneComponent).2 notGiven⟩

/-- Different notices with the same line, of which the second one is not let through. -/
theorem NoticeLog.answers_iff_sameLine :
    let first : Notice := ⟨"a] b", "c"⟩
    let second : Notice := ⟨"a", "b] c"⟩
    ¬ IsGiven [.notice first] second ∧
      (NoticeLog.empty.answers [.notice first, .notice second])[1]? = some [] := by
  intro first second
  constructor
  · intro ⟨front, back, split, _⟩
    cases front with
    | nil =>
        have same := LogCall.notice.inj (List.cons.inj split).1
        exact absurd same (by decide)
    | cons other front => simp at split
  · decide +kernel

end CssLint
