import CssLint.Proofs.Selector.PlainEntries
import CssLint.Proofs.Selector.Suffix

/-!
# Brackets that are well nested

A text is well nested when every bracket outside strings and escapes is closed by
one of its own kind, in the order of a stack.  The division of a list into entries only
counts brackets, and so do the readers of attribute tests and arguments, each of them
other brackets.  In a well-nested text they cannot disagree: whatever a reader
takes closes no bracket that was open in front of it.
-/

namespace CssLint.Selector

open Text Written CssLint.Name

/-! ## The brackets that are due -/

/-- A scanner with the brackets that are still to be closed, the innermost first. -/
structure Nesting where
  scanner : Scanner
  due : List Char
deriving Repr, DecidableEq

/-- The bracket that closes what `c` opens. -/
def closer? : Char → Option Char
  | '(' => some ')'
  | '[' => some ']'
  | '\x7b' => some '\x7d'
  | _ => none

namespace Nesting

/-- Passing over `c`. Outside strings and escapes, a bracket may only be closed when it is due. -/
def step (nesting : Nesting) (c : Char) : Option Nesting :=
  let scanner := nesting.scanner.step .all c
  if nesting.scanner.escaped || nesting.scanner.quote.isSome then some ⟨scanner, nesting.due⟩
  else if let some closer := closer? c then some ⟨scanner, closer :: nesting.due⟩
  else if Brackets.all.closers.contains c then
    match nesting.due with
    | closer :: due => if closer = c then some ⟨scanner, due⟩ else none
    | [] => none
  else some ⟨scanner, nesting.due⟩

def run (nesting : Nesting) (text : List Char) : Option Nesting :=
  text.foldlM step nesting

@[simp] theorem run_nil (nesting : Nesting) : nesting.run [] = some nesting := rfl

@[simp] theorem run_cons (nesting : Nesting) (c : Char) (text : List Char) :
    nesting.run (c :: text) = (nesting.step c).bind (·.run text) := rfl

theorem run_append (nesting : Nesting) (left right : List Char) :
    nesting.run (left ++ right) = (nesting.run left).bind (·.run right) :=
  List.foldlM_append

/-- Outside strings and escapes, with these brackets due. -/
def atRest (due : List Char) : Nesting :=
  ⟨Scanner.atDepth due.length, due⟩

end Nesting

/-- The brackets of the text are closed one by one, each by one of its kind. -/
def WellNested (text : List Char) : Prop :=
  ((Nesting.atRest []).run text).any (·.due.isEmpty) = true

instance (text : List Char) : Decidable (WellNested text) :=
  inferInstanceAs (Decidable (_ = true))

namespace Nesting

variable {due : List Char} {c : Char}

/-- The characters that change what a scanner knows. -/
def delimiters : List Char :=
  ['\\', '"', '\'', '(', '[', '\x7b', ')', ']', '\x7d']

theorem step_of_not_mem_delimiters (plain : c ∉ delimiters) :
    (atRest due).step c = some (atRest due) := by
  simp only [delimiters, List.mem_cons, List.not_mem_nil, or_false, not_or] at plain
  have noCloser : closer? c = none := by
    unfold closer?
    split <;> simp_all
  simp [step, atRest, Scanner.atDepth, Scanner.step, Brackets.all, noCloser, plain]

theorem step_opener {closer : Char} (opens : closer? c = some closer) :
    (atRest due).step c = some (atRest (closer :: due)) := by
  unfold closer? at opens
  split at opens <;> cases opens <;> rfl

theorem step_closer (closes : c ∈ Brackets.all.closers) (closer : Char) :
    (atRest (closer :: due)).step c = if closer = c then some (atRest due) else none := by
  simp only [Brackets.all, List.mem_cons, List.not_mem_nil, or_false] at closes
  rcases closes with rfl | rfl | rfl <;> rfl

theorem step_closer_nil (closes : c ∈ Brackets.all.closers) : (atRest []).step c = none := by
  simp only [Brackets.all, List.mem_cons, List.not_mem_nil, or_false] at closes
  rcases closes with rfl | rfl | rfl <;> rfl

theorem scanner_of_step {nesting next : Nesting} (steps : nesting.step c = some next) :
    next.scanner = nesting.scanner.step .all c := by
  unfold step at steps
  repeat' split at steps
  all_goals
    cases steps
    try rfl

end Nesting

/-! ## Texts that are crossed -/

/-- A scan in front of `text` goes on with `final` in front of `rest`, and nothing in between
divides entries. -/
def Crosses (nesting : Nesting) (text : List Char) (final : Nesting) (rest : List Char) : Prop :=
  ∃ written, text = written ++ rest ∧ nesting.run written = some final ∧
    ∀ more, splitFrom ',' nesting.scanner (written ++ more) =
      glue written (splitFrom ',' final.scanner more)

open Nesting (atRest)

namespace Crosses

variable {nesting middle final : Nesting} {text between rest : List Char}

theorem refl (nesting : Nesting) (text : List Char) : Crosses nesting text nesting text := by
  refine ⟨[], rfl, rfl, fun more => ?_⟩
  rw [glue_nil (splitFrom_ne_nil _ _ _), List.nil_append]

theorem trans (first : Crosses nesting text middle between)
    (second : Crosses middle between final rest) : Crosses nesting text final rest := by
  obtain ⟨front, rfl, runFront, splitFront⟩ := first
  obtain ⟨back, rfl, runBack, splitBack⟩ := second
  refine ⟨front ++ back, (List.append_assoc ..).symm, ?_, fun more => ?_⟩
  · rw [Nesting.run_append, runFront, Option.bind_some, runBack]
  · rw [List.append_assoc, splitFront, splitBack, glue_glue]

theorem run_eq (crosses : Crosses nesting text final rest) : nesting.run text = final.run rest := by
  obtain ⟨written, rfl, run, -⟩ := crosses
  rw [Nesting.run_append, run, Option.bind_some]

theorem step {c : Char} (uncut : c = ',' → nesting.scanner.isIdle = false)
    (steps : nesting.step c = some final) (text : List Char) :
    Crosses nesting (c :: text) final text := by
  have stays : (nesting.scanner.isIdle && decide (c = ',')) = false := by
    by_cases comma : c = ','
    · rw [uncut comma, Bool.false_and]
    · rw [decide_eq_false comma, Bool.and_false]
  refine ⟨[c], rfl, ?_, fun more => ?_⟩
  · rw [Nesting.run_cons, steps]
    rfl
  · rw [List.singleton_append, splitFrom_cons stays, Nesting.scanner_of_step steps]

end Crosses

/-! ## Between strings and escapes -/

/-- All brackets that the text closes are due at their places, where these are due in front. -/
def Open (due text : List Char) : Prop :=
  ((atRest due).run text).isSome = true

theorem Crosses.isOpen {due below text rest : List Char}
    (crosses : Crosses (atRest due) text (atRest below) rest) (opened : Open due text) :
    Open below rest := by
  rwa [Open, ← crosses.run_eq]

namespace Crosses

variable {due : List Char}

/-- A character that is neither a mark nor a comma between entries. -/
theorem char {c : Char} (plain : c ∉ Nesting.delimiters) (uncut : c = ',' → due ≠ [])
    (text : List Char) : Crosses (atRest due) (c :: text) (atRest due) text := by
  refine .step (fun comma => ?_) (Nesting.step_of_not_mem_delimiters plain) text
  cases due with
  | nil => exact absurd rfl (uncut comma)
  | cons => rfl

theorem opener {c closer : Char} (opens : closer? c = some closer) (text : List Char) :
    Crosses (atRest due) (c :: text) (atRest (closer :: due)) text := by
  refine .step ?_ (Nesting.step_opener opens) text
  rintro rfl
  cases opens

theorem escape (c : Char) (text : List Char) :
    Crosses (atRest due) ('\\' :: c :: text) (atRest due) text :=
  (Crosses.step (fun comma => absurd comma (by decide)) rfl _).trans
    (Crosses.step (fun _ => rfl) rfl text)

/-- Inside a string, in front of which these brackets are due. -/
private def inString (quote : Char) (due : List Char) : Nesting :=
  ⟨⟨some quote, false, due.length⟩, due⟩

private theorem step_inString {quote c : Char} (other : c ≠ quote) (noEscape : c ≠ '\\') :
    (inString quote due).step c = some (inString quote due) := by
  have steps : (inString quote due).scanner.step .all c = (inString quote due).scanner := by
    simp [Scanner.step, inString, noEscape, Ne.symm other]
  simp only [Nesting.step, steps]
  rfl

private theorem stringInside {quote : Char} (quotes : quote = '"' ∨ quote = '\'')
    {text rest : List Char} (closed : stringEnd? quote text = some rest) :
    Crosses (inString quote due) text (atRest due) rest := by
  fun_induction stringEnd? quote text with
  | case1 => cases closed
  | case2 => cases closed
  | case3 c text inductionHypothesis =>
      have backslash : Crosses (inString quote due) ('\\' :: c :: text)
          ⟨⟨some quote, true, due.length⟩, due⟩ (c :: text) := .step (fun _ => rfl) rfl _
      have escaped : Crosses ⟨⟨some quote, true, due.length⟩, due⟩ (c :: text)
          (inString quote due) text := .step (fun _ => rfl) rfl _
      exact (backslash.trans escaped).trans (inductionHypothesis closed)
  | case4 text =>
      cases closed
      refine .step (fun _ => rfl) ?_ _
      rcases quotes with rfl | rfl <;> rfl
  | case5 c text notLast notEscape different inductionHypothesis =>
      have noEscape : c ≠ '\\' := by
        rintro rfl
        cases text with
        | nil => exact notLast rfl rfl
        | cons next more => exact notEscape next more rfl rfl
      exact .trans (.step (fun _ => rfl) (step_inString different noEscape) text)
        (inductionHypothesis closed)

/-- A whole string. -/
theorem string {quote : Char} (quotes : quote = '"' ∨ quote = '\'')
    {text rest : List Char} (closed : stringEnd? quote text = some rest) :
    Crosses (atRest due) (quote :: text) (atRest due) rest := by
  refine .trans (.step ?_ ?_ text) (stringInside quotes closed)
  · rintro rfl
    rcases quotes with quotes | quotes <;> cases quotes
  · rcases quotes with rfl | rfl <;> rfl

end Crosses

/-- A bracket that is closed was due. -/
theorem Open.closer {due text : List Char} {c : Char} (closes : c ∈ Brackets.all.closers)
    (opened : Open due (c :: text)) :
    ∃ below, due = c :: below ∧ Crosses (atRest due) (c :: text) (atRest below) text := by
  rw [Open, Nesting.run_cons] at opened
  cases due with
  | nil =>
      rw [Nesting.step_closer_nil closes] at opened
      cases opened
  | cons closer below =>
      rw [Nesting.step_closer closes] at opened
      by_cases same : closer = c
      · refine ⟨below, by rw [same], .step (fun _ => rfl) ?_ text⟩
        rw [Nesting.step_closer closes, if_pos same]
      · rw [if_neg same] at opened
        cases opened

end CssLint.Selector
