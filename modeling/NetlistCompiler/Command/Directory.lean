import NetlistCompiler.Command.Files

/-!
# Directories in memory

A directory tree held as a value. Paths are followed part by part, so everything on the way has to
be a directory, and nothing outside the tree can be reached.
-/

namespace NetlistCompiler.Command

/-- A location in a tree: the names from the root on. -/
abbrev Location := List String

/-- The directories and the files of a tree, with the texts of the files. -/
structure Directory where
  directories : List Location
  files : List (Location × String)
  deriving Repr, DecidableEq

namespace Directory

/-- The locations above a location. -/
def above (l : Location) : List Location :=
  (List.range l.length).map l.take

/-- The tree of some files. -/
def ofFiles (files : List (String × String)) : Directory :=
  let located := files.map fun (path, text) => (pathParts path, text)
  ⟨([] :: located.flatMap fun f => above f.1).eraseDups, located⟩

def isDirectory (d : Directory) (l : Location) : Bool :=
  d.directories.contains l

/-- The longest name that a file or directory may have, in bytes. -/
def nameLimit : Nat := 255

def isName (part : String) : Bool :=
  part.utf8ByteSize ≤ nameLimit

/-- Follows the parts of a path from a directory. The last part need not exist. -/
def follow (d : Directory) (here : Location) : List String → Option Location
  | [] => some here
  | part :: rest =>
    if !d.isDirectory here then none
    else if part == ".." then (if here.isEmpty then none else d.follow here.dropLast rest)
    else if isName part then d.follow (here ++ [part]) rest
    else none

/-- The location of a path, if the path can stand for a file. -/
def locate? (d : Directory) (path : String) : Option Location :=
  let last := (path.splitOn "/").getLastD ""
  if isAbsolute path || last == "" || last == "." || last == ".." then none
  else d.follow [] (pathParts path)

/-- The text of a file. -/
def read? (d : Directory) (path : String) : Option String :=
  (d.locate? path).bind fun l => d.files.lookup l

/-- Writes a file into a directory that exists. -/
def write? (d : Directory) (path text : String) : Option Directory := do
  let l ← d.locate? path
  if d.isDirectory l || !d.isDirectory l.dropLast then none
  else return { d with files := d.files.filter (fun f => f.1 != l) ++ [(l, text)] }

/-- Creates the directories on a way. -/
def create? (d : Directory) (here : Location) : List String → Option Directory
  | [] => some d
  | part :: rest =>
    if part == ".." then (if here.isEmpty then none else d.create? here.dropLast rest)
    else
      let l := here ++ [part]
      if d.isDirectory l then d.create? l rest
      else if (d.files.lookup l).isSome || !isName part then none
      else create? { d with directories := d.directories ++ [l] } l rest

/-- Creates a directory and those above it. -/
def createDirectories? (d : Directory) (path : String) : Option Directory :=
  if isAbsolute path then none else d.create? [] (pathParts path)

/-- Runs a change that may fail, and tells whether it has succeeded. -/
def attempt (change : Directory → Option Directory) : StateM Directory Bool := do
  match change (← get) with
  | some d => set d; return true
  | none => return false

/-- Access to the files of a tree. -/
def access : Files (StateM Directory) where
  isFile path := do return ((← get).read? path).isSome
  read path := do return (← get).read? path
  write path text := attempt fun d => d.write? path text
  createDirectories path := attempt fun d => d.createDirectories? path

end Directory

end NetlistCompiler.Command
