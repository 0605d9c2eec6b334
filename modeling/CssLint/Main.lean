import CssLint.CommandLine.Run

/-!
The program.

The files that a run may look at are read first, so that the run itself is a
function of what they hold.
-/

namespace CssLint

/-- What was found at a path: nothing that is a file, or a file with its text if it has one. -/
def readPath (path : String) : IO (Option (Option String)) := do
  try
    return some (String.fromUTF8? (← IO.FS.readBinFile path))
  catch error =>
    match error with
    | .noFileOrDirectory .. => return none
    | .inappropriateType .. => return none
    | .permissionDenied .. => return some none
    | _ => return none

/-- The paths that a run looks at, where so many directories enclose the working directory. -/
def Options.paths (options : Options) (enclosing : Nat) : List String :=
  options.config.elim (configPaths enclosing) ([·]) ++ options.files

/-- What a run with the given options sees. -/
def observe (options : Options) : IO Surroundings := do
  let directory := (← IO.currentDir).toString
  let enclosing := (directory.splitOn "/").length - 1
  let found ← (options.paths enclosing).mapM fun path => do
    return (path, ← readPath path)
  let standardInput ←
    if options.files.isEmpty then
      pure (String.fromUTF8? (← (← IO.getStdin).readBinToEnd))
    else pure none
  return {
    enclosing := enclosing
    isFile := fun path => ((found.lookup path).join).isSome
    text? := fun path => ((found.lookup path).join).join
    standardInput := standardInput }

end CssLint

open CssLint in
/-- Runs the program with the arguments of the command line. -/
def main (arguments : List String) : IO UInt32 := do
  let outcome ←
    match Options.ofArguments arguments with
    | .error stop => pure stop.outcome
    | .ok options => pure (options.run (← observe options))
  IO.print outcome.output
  return outcome.status.code.toUInt32
