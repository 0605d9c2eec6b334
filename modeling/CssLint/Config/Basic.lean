import CssLint.Config.Setting
import CssLint.Json.Reader

/-!
Configurations.

A configuration says which rules run and how each is set up. Its text is a JSON
object whose member `rules` holds a setting for each rule; other members are
passed over. A list with the rules as its only element means the same. Settings
are checked in the order of the names of the rules, and the first fault counts.
-/

namespace CssLint

open Json

/-- The rules that run, with their settings, in the order of their names. -/
structure Config where
  rules : Members RuleSetting
  ordered : rules.Ordered
deriving Repr

namespace Config

def empty : Config := ⟨[], List.Pairwise.nil⟩

def set (config : Config) (name : String) (setting : RuleSetting) : Config :=
  ⟨config.rules.insert name setting, config.ordered.insert name setting⟩

/-- The setting of a rule, if it runs. -/
def setting? (config : Config) (name : String) : Option RuleSetting :=
  config.rules.get? name

/-! ## Reading -/

/-- The name of the member that holds the settings. -/
def rulesMember : String := "rules"

/-- A member of the text of a configuration. The rules are one level inside; what else there is
only has to follow the grammar, with as many levels as there are characters. -/
def readMember : Reader (String × Option Json) := fun text =>
  Json.readMember false
    (fun name text =>
      if name = rulesMember then
        (readValue false (maxLevels - 1) text).map fun (value, rest) => (some value, rest)
      else (readValue true text.length text).map fun (_, rest) => (none, rest))
    text

/-- The values for the rules in the text of a configuration: those of the members with that name,
or all elements of a list. -/
def readRules : Reader (List Json) :=
  afterGap fun text =>
    match text with
    | [] => none
    | c :: inside =>
      if c = '\x7b' then
        (afterBracket (readContainer readMember '\x7d') c inside).map
          fun (members, rest) => (members.filterMap Prod.snd, rest)
      else if c = '[' then
        afterBracket (readContainer (readValue false (maxLevels - 1)) ']') c inside
      else none

/-- The settings that the text of a configuration writes, in the order of their names. -/
def settingsOfText? (text : String) : Option (Members Json) :=
  match complete? readRules text.toList with
  | some [] => some []
  | some [.object members] => some members
  | _ => none

def ofSettings : Members Json → Config → Except ConfigError Config
  | [], config => .ok config
  | (name, value) :: settings, config =>
    match RuleSetting.ofJson name value with
    | .error error => .error error
    | .ok none => ofSettings settings config
    | .ok (some setting) => ofSettings settings (config.set name setting)

/-- The configuration that a text writes. -/
def ofText (text : String) : Except ConfigError Config :=
  match settingsOfText? text with
  | none => .error .malformedText
  | some settings => ofSettings settings .empty

end Config

end CssLint
