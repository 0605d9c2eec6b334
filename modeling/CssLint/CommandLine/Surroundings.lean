/-!
What a run sees of the world.

A run reads files and standard input as UTF-8 text, and knows how deep below the
outermost directory it works. `FileTree` is a directory with files in it; a run
inside it sees what the tree holds.
-/

namespace CssLint

/-- What a run sees: how many directories enclose the working directory, which paths are files,
the text of files, and standard input. What is no UTF-8 text has none. -/
structure Surroundings where
  enclosing : Nat
  isFile : String → Bool
  text? : String → Option String
  standardInput : Option String

/-- A directory with files below it; the path of a file is the list of its parts. -/
structure FileTree where
  files : List (List String × List UInt8)

/-- The text of a file, if it is UTF-8. -/
def textOfBytes? (bytes : List UInt8) : Option String :=
  String.fromUTF8? ⟨bytes.toArray⟩

namespace FileTree

def parts (path : String) : List String :=
  path.splitOn "/"

/-- Whether a part of a path stands for the directory in front of it. -/
def isHere (part : String) : Bool :=
  part == "" || part == "."

/-- The place of a path that begins at the top of the tree, part by part. -/
def place (path : String) : List String :=
  (parts path).foldl
    (fun place part =>
      if isHere part then place
      else if part = ".." then place.dropLast
      else place ++ [part])
    []

/-- Whether the tree has the given directory, where `working` is one that it has. -/
def hasDirectory (tree : FileTree) (working directory : List String) : Bool :=
  directory.isPrefixOf working ||
    tree.files.any fun (path, _) => directory.isPrefixOf path.dropLast

/-- The file that a path leads to from a directory. -/
def walk (tree : FileTree) (working directory : List String) :
    List String → Option (List String)
  | [] => none
  | part :: rest =>
    if isHere part then tree.walk working directory rest
    else if part = ".." then
      if directory.isEmpty then none else tree.walk working directory.dropLast rest
    else if rest.isEmpty then some (directory ++ [part])
    else if tree.hasDirectory working (directory ++ [part]) then
      tree.walk working (directory ++ [part]) rest
    else none

/-- The bytes of the file that a path leads to from the working directory. Paths from the root of
the file system lead out of the tree. -/
def bytes? (tree : FileTree) (working : List String) (path : String) : Option (List UInt8) :=
  match parts path with
  | "" :: _ => none
  | parts => (tree.walk working working parts).bind fun file => tree.files.lookup file

/-- What a run sees that works in a directory of the tree. -/
def surroundings (tree : FileTree) (working : List String) (standardInput : Option String) :
    Surroundings where
  enclosing := working.length
  isFile path := (tree.bytes? working path).isSome
  text? path := (tree.bytes? working path).bind textOfBytes?
  standardInput := standardInput

end FileTree

end CssLint
