import CssLint.Report.Layout

/-!
The options of the command line.

An option is a letter behind one hyphen or a word behind two. Letters may stand
together behind one hyphen. The value of an option stands behind an equals sign,
directly behind its letter, or in the next argument, which then does not begin
with a hyphen, unless it is a single one. Two hyphens alone end the options; all
else are files. Arguments are looked at in order, and the first that asks for
something else than a run, or that is wrong, decides.
-/

namespace CssLint

/-- What a run of the program is asked to do. -/
structure Options where
  files : List String
  config : Option String
  max : Option Nat
  layout : Option Layout
  quiet : Bool
  inputName : Option String
  verbosity : Nat
deriving Repr, DecidableEq

/-- Why no run takes place: the arguments are wrong, or they ask for the version or for help. -/
inductive Stop where
  | usage
  | version
  | help
deriving Repr, DecidableEq

/-- An option without a value. -/
inductive Flag where
  | quiet
  | verbose
  | version
  | help
deriving Repr, DecidableEq

/-- An option with a value. -/
inductive Parameter where
  | config
  | max
  | layout
  | inputName
deriving Repr, DecidableEq

/-- An option. -/
inductive Switch where
  | flag (flag : Flag)
  | parameter (parameter : Parameter)
deriving Repr, DecidableEq

namespace Switch

def ofLetter? : Char → Option Switch
  | 'c' => some (.parameter .config)
  | 'f' => some (.parameter .layout)
  | 'q' => some (.flag .quiet)
  | 'v' => some (.flag .verbose)
  | 'V' => some (.flag .version)
  | 'h' => some (.flag .help)
  | _ => none

def ofWord? (word : String) : Option Switch :=
  [("config", parameter .config), ("max", parameter .max), ("formatter", parameter .layout),
    ("stdin-filename", parameter .inputName), ("quiet", flag .quiet), ("verbose", flag .verbose),
    ("version", flag .version), ("help", flag .help)].lookup word

end Switch

namespace Options

def empty : Options :=
  ⟨[], none, none, none, false, none, 0⟩

/-! ## Values -/

/-- The largest limit that the command line takes. -/
def largestMax : Nat := 4294967295

/-- The number that decimal digits write; at least one digit is needed. -/
def digitsValue? (digits : List Char) : Option Nat :=
  if digits.isEmpty || !digits.all Char.isDigit then none
  else some (digits.foldl (fun value digit => 10 * value + (digit.toNat - '0'.toNat)) 0)

/-- The limit that a value writes, with an optional sign. -/
def maxOf? (value : String) : Option Nat :=
  let number :=
    match value.toList with
    | '+' :: digits => digitsValue? digits
    | '-' :: digits => (digitsValue? digits).filter fun number => number == 0
    | digits => digitsValue? digits
  number.filter fun number => number ≤ largestMax

/-- The path that a value writes; it is not empty. -/
def pathOf? (value : String) : Option String :=
  if value.isEmpty then none else some value

/-- What an option gets that had no value before; a second value is wrong. -/
def once {α : Type} (held value : Option α) : Except Stop (Option α) :=
  match held, value with
  | none, some value => .ok (some value)
  | _, _ => .error .usage

/-- The options with a value for one that takes one. -/
def assign (options : Options) (parameter : Parameter) (value : String) :
    Except Stop Options := do
  match parameter with
  | .config => return { options with config := ← once options.config (pathOf? value) }
  | .max => return { options with max := ← once options.max (maxOf? value) }
  | .layout => return { options with layout := ← once options.layout (Layout.ofName? value) }
  | .inputName => return { options with inputName := ← once options.inputName (some value) }

/-- The options with one more flag; some flags end the run. -/
def raise (options : Options) : Flag → Except Stop Options
  | .quiet => if options.quiet then .error .usage else .ok { options with quiet := true }
  | .verbose => .ok { options with verbosity := options.verbosity + 1 }
  | .version => .error .version
  | .help => .error .help

def addFile (options : Options) (path : String) : Except Stop Options :=
  match pathOf? path with
  | some path => .ok { options with files := options.files ++ [path] }
  | none => .error .usage

/-! ## Arguments -/

/-- The text of a value that stands directly behind a letter. -/
def attachedValue (text : List Char) : String :=
  match text with
  | '=' :: value => String.ofList value
  | value => String.ofList value

/-- The options with the letters behind a hyphen, and the last one if its value is still to
come. -/
def readLetters (options : Options) : List Char → Except Stop (Options × Option Parameter)
  | [] => .ok (options, none)
  | letter :: letters =>
    match Switch.ofLetter? letter with
    | none => .error .usage
    | some (.flag flag) =>
      match options.raise flag with
      | .error stop => .error stop
      | .ok options => readLetters options letters
    | some (.parameter parameter) =>
      if letters.isEmpty then .ok (options, some parameter)
      else (options.assign parameter (attachedValue letters)).map (·, none)

/-- A word behind two hyphens, and the value behind its first equals sign. -/
def splitWord (text : List Char) : String × Option String :=
  match text.dropWhile fun c => c != '=' with
  | [] => (String.ofList text, none)
  | _ :: value => (String.ofList (text.takeWhile fun c => c != '='), some (String.ofList value))

/-- The options with the word behind two hyphens, and its option if its value is still to
come. -/
def readWord (options : Options) (text : List Char) :
    Except Stop (Options × Option Parameter) :=
  let (word, value) := splitWord text
  match Switch.ofWord? word, value with
  | some (.flag flag), none => (options.raise flag).map (·, none)
  | some (.parameter parameter), none => .ok (options, some parameter)
  | some (.parameter parameter), some value => (options.assign parameter value).map (·, none)
  | _, _ => .error .usage

/-- The options with one argument that is not behind the end of the options. -/
def readArgument (options : Options) (argument : String) :
    Except Stop (Options × Option Parameter) :=
  match argument.toList with
  | ['-'] => (options.addFile argument).map (·, none)
  | '-' :: '-' :: text => options.readWord text
  | '-' :: letters => options.readLetters letters
  | _ => (options.addFile argument).map (·, none)

/-- Whether an argument may be the value of the option in front of it. -/
def isValue (argument : String) : Bool :=
  argument == "-" || argument.toList.head? != some '-'

def readArguments (options : Options) : List String → Except Stop Options
  | [] => .ok options
  | argument :: arguments =>
    if argument = "--" then arguments.foldlM addFile options
    else
      match options.readArgument argument with
      | .error stop => .error stop
      | .ok (options, none) => readArguments options arguments
      | .ok (options, some parameter) =>
        match arguments with
        | [] => .error .usage
        | value :: arguments =>
          if isValue value then
            match options.assign parameter value with
            | .error stop => .error stop
            | .ok options => readArguments options arguments
          else .error .usage

/-- What the arguments of the command line ask for. -/
def ofArguments (arguments : List String) : Except Stop Options :=
  readArguments empty arguments

end Options

end CssLint
