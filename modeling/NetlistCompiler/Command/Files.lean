/-!
# Access to files

Commands reach files through four operations, so that they run in any monad that offers them.
-/

namespace NetlistCompiler.Command

/-- Access to files by path. Reading gives nothing if there is no such file; the other operations
tell whether they have succeeded. -/
structure Files (m : Type → Type) where
  isFile : String → m Bool
  read : String → m (Option String)
  write : String → String → m Bool
  createDirectories : String → m Bool

/-- The parts of a path between slashes, without those that stay in place. -/
def pathParts (path : String) : List String :=
  (path.splitOn "/").filter fun part => part != "" && part != "."

/-- Whether a path starts at the root. -/
def isAbsolute (path : String) : Bool :=
  path.toList.head? == some '/'

/-- The directory that a path lies in; the empty path stands for the current one. -/
def parentDirectory (path : String) : String :=
  (if isAbsolute path then "/" else "") ++ "/".intercalate (pathParts path).dropLast

/-- The path of a name in a directory. -/
def joinPath (directory name : String) : String :=
  if directory == "" then name
  else if directory.toList.getLast? == some '/' then directory ++ name
  else directory ++ "/" ++ name

end NetlistCompiler.Command
