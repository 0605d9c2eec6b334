import CssLint.Json.Printer

/-!
Settings of rules.

A setting is a value for the rule, how serious its warnings are, and a text that
takes the place of its own message. It is written as the value alone or as a
list of the value and an object with the other two. A rule is off when its
setting is null or false, or a list that begins with null.
-/

namespace CssLint

/-- How serious a warning is. -/
inductive Severity where
  | warning
  | error
deriving Repr, DecidableEq

namespace Severity

def name : Severity → String
  | warning => "warning"
  | error => "error"

def ofName? (name : String) : Option Severity :=
  if name = "warning" then some .warning
  else if name = "error" then some .error
  else none

end Severity

/-- How a rule is set up. -/
structure RuleSetting where
  primary : Json
  severity : Severity
  message : Option String
deriving Repr

/-- Why a configuration cannot be used. -/
inductive ConfigError where
  | unreadableFile
  | malformedText
  | invalidSetting (rule : String)
  | invalidSeverity (rule severity : String)
deriving Repr, DecidableEq

namespace ConfigError

/-- What is wrong with a setting; other faults have no text of their own. -/
def message? : ConfigError → Option String
  | unreadableFile => none
  | malformedText => none
  | invalidSetting rule =>
    some ("invalid setting for rule \"" ++ rule ++
      "\": expected a value, null, or [value, \x7b ... \x7d]")
  | invalidSeverity rule severity =>
    some ("invalid severity " ++ severity ++ " for rule \"" ++ rule ++
      "\": expected \"warning\" or \"error\"")

end ConfigError

namespace RuleSetting

/-- A setting with a value only; its warnings are errors. -/
def ofPrimary (primary : Json) : RuleSetting :=
  ⟨primary, .error, none⟩

/-- The severity that the second part of a setting gives. -/
def severityOf (rule : String) (secondary : Json) : Except ConfigError Severity :=
  match secondary.member? "severity" with
  | none => .ok .error
  | some value =>
    match value.string?.bind Severity.ofName? with
    | some severity => .ok severity
    | none => .error (.invalidSeverity rule value.compact)

/-- The setting of a rule with a value and an object behind it. -/
def ofParts (rule : String) (primary secondary : Json) : Except ConfigError RuleSetting :=
  match secondary with
  | .object _ =>
    match severityOf rule secondary with
    | .ok severity => .ok ⟨primary, severity, (secondary.member? "message").bind Json.string?⟩
    | .error error => .error error
  | _ => .error (.invalidSetting rule)

/-- The setting that a value writes; `none` for a rule that is off. A fault of the second part is
found in front of parts too many. -/
def ofJson (rule : String) (value : Json) : Except ConfigError (Option RuleSetting) :=
  match value with
  | .null => .ok none
  | .bool false => .ok none
  | .array [] => .error (.invalidSetting rule)
  | .array (.null :: _) => .ok none
  | .array [primary] => .ok (some (ofPrimary primary))
  | .array (primary :: secondary :: more) =>
    match ofParts rule primary secondary with
    | .error error => .error error
    | .ok setting => if more.isEmpty then .ok (some setting) else .error (.invalidSetting rule)
  | primary => .ok (some (ofPrimary primary))

end RuleSetting

end CssLint
