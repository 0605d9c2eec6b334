import CssLint.CommandLine.Options
import CssLint.CommandLine.Surroundings
import CssLint.Linter

/-!
A run of the program.

The configuration comes from the named file or from the nearest one above the
working directory; a limit on the command line takes the place of the one in it.
The status is zero when nothing has failed, one when something cannot be read,
and two when a style sheet has errors or the arguments are wrong. Nothing is
printed when something cannot be read.
-/

namespace CssLint

/-- How a run has ended: nothing has failed, something cannot be read, or a style sheet has errors
or the arguments are wrong. -/
inductive Status where
  | clean
  | unreadable
  | failed
deriving Repr, DecidableEq

/-- The number for a status that the program returns. -/
def Status.code : Status → Nat
  | clean => 0
  | unreadable => 1
  | failed => 2

/-- What a run leaves behind: its status and what it printed. -/
structure Outcome where
  status : Status
  output : String
deriving Repr, DecidableEq

/-- The line with the name of the program and its version. -/
def versionLine : String := "selint 0.1.0\n"

def helpText : String :=
  "Usage: selint [OPTIONS] [FILE]...\n\n" ++
    "  -c, --config FILE          use this configuration\n" ++
    "      --max N                allow at most N compound selectors\n" ++
    "  -f, --formatter FORMAT     print the report as string or json\n" ++
    "  -q, --quiet                report errors only\n" ++
    "      --stdin-filename NAME  name standard input in the report\n" ++
    "  -v, --verbose              say more\n" ++
    "  -h, --help                 print this text\n" ++
    "  -V, --version              print the version\n"

def Stop.outcome : Stop → Outcome
  | .usage => ⟨.failed, ""⟩
  | .version => ⟨.clean, versionLine⟩
  | .help => ⟨.clean, helpText⟩

namespace Options

/-! ## Configuration -/

/-- The name of the file that holds the configuration of a directory and of those below. -/
def configName : String := ".selintrc.json"

/-- The paths at which a configuration is looked for, from the nearest on. -/
def configPaths (enclosing : Nat) : List String :=
  (List.range (enclosing + 1)).map fun (levels : Nat) =>
    String.join (List.replicate levels "../") ++ configName

def configOfFile (surroundings : Surroundings) (path : String) : Except ConfigError Config :=
  match surroundings.text? path with
  | none => .error .unreadableFile
  | some text => Config.ofText text

/-- The configuration in the named file or in the nearest one. -/
def baseConfig (options : Options) (surroundings : Surroundings) : Except ConfigError Config :=
  match options.config with
  | some path => configOfFile surroundings path
  | none =>
    match (configPaths surroundings.enclosing).find? surroundings.isFile with
    | some path => configOfFile surroundings path
    | none => .ok .empty

/-- The configuration with a limit; the rest of the rule's setting stays. -/
def withMax (config : Config) (max : Nat) : Config :=
  let primary : Json := .number (.integer max)
  let setting :=
    match config.setting? Rule.maxCompoundsName with
    | some setting => { setting with primary := primary }
    | none => .ofPrimary primary
  config.set Rule.maxCompoundsName setting

def effectiveConfig (options : Options) (surroundings : Surroundings) :
    Except ConfigError Config :=
  (options.baseConfig surroundings).map fun config => options.max.elim config (withMax config)

/-! ## Style sheets -/

/-- The names and texts of the style sheets of a run: the files, or standard input if there are
none. All of them have to be readable. -/
def inputs? (options : Options) (surroundings : Surroundings) :
    Option (List (Option String × String)) :=
  if options.files.isEmpty then
    surroundings.standardInput.map fun text => [(options.inputName, text)]
  else
    options.files.mapM fun path => (surroundings.text? path).map fun text => (some path, text)

/-- What is found in the style sheets of a run; `none` if something cannot be read. -/
def results? (options : Options) (surroundings : Surroundings) : Option (List LintResult) :=
  match options.effectiveConfig surroundings with
  | .error _ => none
  | .ok config =>
    (options.inputs? surroundings).map fun inputs =>
      inputs.map fun (source, text) => lint config text.toList source

/-! ## The run -/

/-- What a run leaves behind that found the given results. -/
def report (options : Options) (results : List LintResult) : Outcome :=
  let shown := if options.quiet then results.map LintResult.errorsOnly else results
  ⟨if results.any LintResult.errored then .failed else .clean,
    (options.layout.getD .plain).render shown⟩

def run (options : Options) (surroundings : Surroundings) : Outcome :=
  match options.results? surroundings with
  | none => ⟨.unreadable, ""⟩
  | some results => options.report results

end Options

/-- What a call of the program with the given arguments leaves behind. -/
def runArguments (arguments : List String) (surroundings : Surroundings) : Outcome :=
  match Options.ofArguments arguments with
  | .error stop => stop.outcome
  | .ok options => options.run surroundings

end CssLint
