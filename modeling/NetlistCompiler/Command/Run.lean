import NetlistCompiler.Command.Arguments
import NetlistCompiler.Command.Files
import NetlistCompiler.Configuration.Reader
import NetlistCompiler.Elaboration
import NetlistCompiler.Json.Printer
import NetlistCompiler.Json.Reader
import NetlistCompiler.Netlist.Json
import NetlistCompiler.Netlist.Retiming
import NetlistCompiler.Resolution
import NetlistCompiler.Surface.Json
import NetlistCompiler.Surface.Names
import NetlistCompiler.SymbolTable

/-!
# Running commands

One command resolves a program, the other builds it into a netlist and may retime it. Both write a
JSON document in which names are places in a table of symbols.
-/

namespace NetlistCompiler.Command

/-- Why a command fails. -/
inductive Failure where
  | unreadableConfiguration
  | malformedConfiguration
  | invalidConfiguration (fault : ConfigurationFault)
  | unreadable (path : String)
  | noProgram (path : String)
  | resolve (error : ResolveError)
  | build (error : BuildError)
  | tooDeep
  | retime (error : RetimeError)
  | unwritable
  deriving Repr

/-- The text of a failure. -/
def Failure.message : Failure → String
  | unreadableConfiguration => "failed to read configuration"
  | malformedConfiguration => "failed to parse configuration"
  | invalidConfiguration fault => fault.message
  | unreadable path => s!"failed to read {path}"
  | noProgram path => s!"{path} is not a valid CST document"
  | resolve error => error.message
  | build error => error.message
  | tooDeep => "program is too deep"
  | retime error => error.message
  | unwritable => "io error"

/-- What a command leaves behind apart from files. -/
structure Outcome where
  exitCode : Nat
  output : Option String
  error : Option String
  deriving Repr, DecidableEq

/-- The name of the file that holds a configuration. -/
def configurationFile : String := "gapl.toml"

/-- Names as places in a table. -/
def placeIn (t : SymbolTable) (name : String) : Json :=
  .ofOption .ofNat (t.find? name)

/-- The document of a resolved program. -/
def resolvedJson (source : Surface.Program) (p : Program) : Json :=
  let t := SymbolTable.ofList source.names
  .object [("symbols", .ofList .string t.names.toList), ("program", p.toJson (placeIn t))]

def reportJson (r : RetimingReport) : Json :=
  .object [("module", .string r.name), ("original_period", .int r.initialPeriod),
    ("period", .int r.period)]

/-- The names that retiming mentions: the ports and the names of the registers it puts in. -/
def retimedNames (r : RetimedDesign) : List String :=
  r.reports.flatMap fun report =>
    match r.design.modules[report.module]? with
    | none => []
    | some m =>
      (m.nodes.toList.filter Node.isRegister).flatMap fun n =>
        n.inputs.map Port.name ++ n.outputs.map Port.name ++ [n.name]

/-- The document of a design. -/
def designJson (source : Surface.Program) (s : Session) (r : RetimedDesign) : Json :=
  let t := SymbolTable.ofList (source.names ++ s.mentioned.toList ++ retimedNames r)
  .object [("symbols", .ofList .string t.names.toList), ("design", r.design.toJson (placeIn t)),
    ("retiming", .ofList reportJson r.reports)]

/-- Whether and how to retime. A target on the command line implies retiming and wins over the one
of the configuration. -/
def retimingGoal? (o : BuildOptions) (c : Configuration) : Option RetimingGoal :=
  if o.retime || o.target.isSome || c.retime then
    some (.ofTarget? (o.target.or c.retimeTarget))
  else none

/-- The design of a session, retimed if there is a goal. -/
def retimeTo? (goal : Option RetimingGoal) (delay : DelayModel) (d : Design) :
    Except Failure RetimedDesign :=
  match goal with
  | none => .ok ⟨d, []⟩
  | some goal => (d.retime delay.nodeDelay goal).mapError .retime

/-- The session of a resolved program. -/
def elaborate (p : Program) : Except Failure Session :=
  match p.elaborate with
  | none => .error .tooDeep
  | some (.error e) => .error (.build e)
  | some (.ok s) => .ok s

section

variable {m : Type → Type} [Monad m] (files : Files m)

/-- Writes a document to a file or to the output. -/
def writeJson (document : Json) (path : Option String) : ExceptT Failure m (Option String) := do
  let text := document.sortMembers.pretty ++ "\n"
  match path with
  | none => return some text
  | some path => if ← files.write path text then return none else throw .unwritable

/-- Reads a program. -/
def readProgram (path : String) : ExceptT Failure m Surface.Program := do
  match ← files.read path with
  | none => throw (.unreadable path)
  | some text =>
    match (Json.parse? text).bind Surface.Program.ofJson? with
    | none => throw (.noProgram path)
    | some p => return p

/-- The directory of the configuration: the given one, that of the given file, or that of the
input. -/
def configurationDirectory (config : Option String) (input : String) :
    ExceptT Failure m String := do
  match config with
  | some path => return if ← files.isFile path then parentDirectory path else path
  | none => return parentDirectory input

/-- Reads the configuration. Only one that was asked for has to exist. -/
def readConfiguration (config : Option String) (input : String) :
    ExceptT Failure m Configuration := do
  let directory ← configurationDirectory files config input
  let path := joinPath directory configurationFile
  match ← files.read path with
  | none => if config.isSome then throw .unreadableConfiguration else return .standard
  | some text =>
    match Configuration.parse text with
    | .error .malformed => throw .malformedConfiguration
    | .error (.invalid fault) => throw (.invalidConfiguration fault)
    | .ok c => return c

/-- Draws the circuit of a module with registers. -/
def drawCircuit (delay : DelayModel) (directory : String) (module : Module) :
    ExceptT Failure m Unit := do
  if module.hasRegisters then
    let name := module.invocation.moduleName
    match module.circuit? delay.nodeDelay name with
    | .error e => throw (.retime e)
    | .ok none => return
    | .ok (some c) =>
      if !(← files.write (joinPath directory (name ++ ".dot")) (module.circuitDot c name)) then
        throw .unwritable

/-- Draws the circuits of a design into a directory. -/
def drawCircuits (delay : DelayModel) (directory : String) (d : Design) :
    ExceptT Failure m Unit := do
  if !(← files.createDirectories directory) then throw .unwritable
  d.modules.toList.forM (drawCircuit files delay directory)

/-- Resolves a program. -/
def runResolve (input : String) (output : Option String) : ExceptT Failure m (Option String) := do
  let source ← readProgram files input
  match source.resolve with
  | .error e => throw (.resolve e)
  | .ok p => writeJson files (resolvedJson source p) output

/-- Builds a program. -/
def runBuild (o : BuildOptions) : ExceptT Failure m (Option String) := do
  let c ← readConfiguration files o.config o.input
  if let some name := c.delay.unknownFunction? then throw (.retime (.unknownDelayFunction name))
  let source ← readProgram files o.input
  match source.resolve with
  | .error e => throw (.resolve e)
  | .ok p =>
    let s ← elaborate p
    let r ← retimeTo? (retimingGoal? o c) c.delay s.design
    if let some directory := o.dotDirectory then drawCircuits files c.delay directory r.design
    writeJson files (designJson source s r) o.output

/-- Runs what a command line asks for. Wrong use has exit code 2 and failure exit code 1. -/
def run (arguments : List String) : m Outcome := do
  match readRequest arguments with
  | .error .misuse => return ⟨2, none, none⟩
  | .error .information => return ⟨0, none, none⟩
  | .ok request =>
    let result ← ExceptT.run <| match request with
      | .resolve input output => runResolve files input output
      | .build o => runBuild files o
    match result with
    | .ok output => return ⟨0, output, none⟩
    | .error e => return ⟨1, none, some e.message⟩

end

end NetlistCompiler.Command
