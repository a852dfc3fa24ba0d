import NetlistCompiler.Command.Run

/-!
# The command line program
-/

open NetlistCompiler.Command

/-- The result of an action, if it has one. -/
def succeeded? (action : IO α) : IO (Option α) := do
  try return some (← action)
  catch _ => return none

/-- Access to the files of the system. -/
def systemFiles : Files IO where
  isFile path := do return (← succeeded? (IO.FS.readBinFile path)).isSome
  read path := succeeded? (IO.FS.readFile path)
  write path text := do return (← succeeded? (IO.FS.writeFile path text)).isSome
  createDirectories path := do
    if path == "" then return true
    return (← succeeded? (IO.FS.createDirAll path)).isSome

def main (arguments : List String) : IO UInt32 := do
  let outcome ← run systemFiles arguments
  if let some text := outcome.output then IO.print text
  if let some message := outcome.error then IO.eprintln s!"error: {message}"
  return outcome.exitCode.toUInt32
