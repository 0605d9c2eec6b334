/-!
Notices about input that was mended.

Reading a style sheet never fails: what does not fit is passed over, and a notice
says so. A log lets each notice through once; it knows notices by the line that
is printed for them.
-/

namespace CssLint

/-- A message and the part of the program that gives it. -/
structure Notice where
  component : String
  message : String
deriving Repr, DecidableEq

namespace Notice

/-- The line that is printed for the notice. -/
def line (notice : Notice) : String :=
  "[" ++ notice.component ++ "] " ++ notice.message

/-- A notice about the reading of a style sheet. -/
def ofReading (message : String) : Notice :=
  ⟨"CSS", message⟩

def unmatchedBrace : Notice := ofReading "skipped unmatched `\x7d`"

def ruleWithoutBlock : Notice := ofReading "dropped rule with no block at end of input"

def nestedTooDeeply : Notice := ofReading "skipped blocks nested too deeply"

def unclosedBlock : Notice := ofReading "unclosed block at end of input"

def invalidDeclaration : Notice := ofReading "skipped invalid declaration"

end Notice

/-- The lines of the notices that were let through. -/
structure NoticeLog where
  lines : List String
deriving Repr, DecidableEq

namespace NoticeLog

def empty : NoticeLog := ⟨[]⟩

/-- Whether the notice is let through: its line is new. -/
def admits (log : NoticeLog) (notice : Notice) : Bool :=
  !log.lines.contains notice.line

def record (log : NoticeLog) (notice : Notice) : NoticeLog :=
  if log.admits notice then ⟨notice.line :: log.lines⟩ else log

/-- The notices that are let through, and the log behind them. -/
def pass (log : NoticeLog) : List Notice → List Notice × NoticeLog
  | [] => ([], log)
  | notice :: notices =>
    let (passed, final) := (log.record notice).pass notices
    (if log.admits notice then notice :: passed else passed, final)

end NoticeLog

end CssLint
