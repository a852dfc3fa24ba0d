import NetlistCompiler.Circuit.Retiming
import NetlistCompiler.Invocation.Name
import NetlistCompiler.Netlist.Circuit

/-!
# Retiming of modules and designs

A module is rebuilt from its circuit by putting the registers of every edge back as a chain, each
register as wide as the bundle of the edge. Retiming a design rebuilds every module with registers
from its retimed circuit.
-/

namespace NetlistCompiler

namespace Module

/-! ### From circuits to modules -/

/-- The wire with the node renumbered to its place among the vertices. -/
def rebase (c : ModuleCircuit) (w : Wire) : Except RetimeError Wire :=
  match c.graph.vertices.findIdx? fun v => v.value == w.node with
  | some node => .ok { w with node }
  | none => .error (.internal s!"connection references dropped node NodeId({w.node})")

/-- Connects two wires of a module under reconstruction. -/
def reconnect (m : Module) (driver driven : Wire) : Except RetimeError Module :=
  match m.connect driver driven with
  | .ok m => .ok m
  | .error e => .error (.internal s!"rebuilding retimed module: {e.message}")

/-- The name of a register put in by retiming. -/
def insertedName (number : Nat) : String :=
  s!"retimed_register_{number}"

/-- Puts one register behind some wires; the result also has the wires on its other side. -/
def addRegister (m : Module) (number : Nat) (drivers : List Wire) :
    Except RetimeError (Module × List Wire) := do
  let register := Primitive.register (.bus drivers.length)
  let id := m.nodes.size
  let widened := m.addNode ⟨insertedName number, .primitive register, register.signature.inputs,
    register.signature.outputs⟩
  let m ← drivers.zipIdx.foldlM
    (fun m (driver, leaf) => m.reconnect driver ⟨id, .input, 0, .data leaf⟩) widened
  return (m, (List.range drivers.length).map fun leaf => ⟨id, .output, 0, .data leaf⟩)

/-- Puts a chain of registers behind some wires, numbered from `number` on. -/
def addRegisters (number : Nat) : Nat → Module × List Wire → Except RetimeError (Module × List Wire)
  | 0, state => .ok state
  | count + 1, (m, drivers) => do
    addRegisters (number + 1) count (← m.addRegister number drivers)

/-- Puts an edge of the circuit into a module, after `number` registers of earlier edges. -/
def addEdge (c : ModuleCircuit) (state : Module × Nat) (e : Edge (List Connection)) :
    Except RetimeError (Module × Nat) := do
  let (m, number) := state
  let drivers ← e.value.mapM fun connection => rebase c connection.driver
  let (m, drivers) ← addRegisters number e.weight.toNat (m, drivers)
  let m ← (drivers.zip e.value).foldlM
    (fun m (driver, connection) => do m.reconnect driver (← rebase c connection.driven)) m
  return (m, number + e.weight.toNat)

/-- Whether a connection belongs to a handshake. -/
def isHandshake (c : Connection) : Bool :=
  !(c.driven.slot matches .data _)

/-- The module with the registers as a circuit of it has them. Other nodes stay, and so do the
connections of handshakes. -/
def rebuild (m : Module) (c : ModuleCircuit) : Except RetimeError Module := do
  let nodes := c.graph.vertices.filterMap fun v => m.nodes[v.value]?
  let (rebuilt, _) ← c.graph.edges.toList.foldlM (addEdge c)
    ({ m with nodes, connections := #[] }, 0)
  (m.connections.toList.filter isHandshake).foldlM
    (fun rebuilt connection => do
      rebuilt.reconnect (← rebase c connection.driver) (← rebase c connection.driven)) rebuilt

end Module

/-! ### Retiming -/

/-- What retiming aims for: the least clock period, or one of at most the target. -/
inductive RetimingGoal where
  | minimize
  | period (target : Int)
  deriving Repr, DecidableEq

/-- The goal of a target that may be left out. -/
def RetimingGoal.ofTarget? : Option Int → RetimingGoal
  | none => minimize
  | some target => period target

/-- What retiming has done to a module. -/
structure RetimingReport where
  module : Nat
  name : String
  initialPeriod : Int
  period : Int
  deriving Repr, DecidableEq

/-- The retimed circuit and its clock period. -/
def ModuleCircuit.retimeTo (c : ModuleCircuit) (goal : RetimingGoal) (name : String)
    (initialPeriod : Int) : Except RetimeError (ModuleCircuit × Int) := do
  match goal with
  | .minimize =>
    let result ← (c.minimizePeriod .word).mapError (.ofGraph name)
    return (result.circuit, result.period)
  | .period target =>
    match ← (c.retimeFor .word target).mapError (.ofGraph name) with
    | none => throw (.targetUnreachable name target initialPeriod)
    | some lags =>
      let period ← (c.periodUnder .word lags).mapError (.ofGraph name)
      return (← (c.retime lags).mapError (.ofGraph name), period)

/-- The retimed module with a report. A module without registers, or with a register without a
source, is left alone. -/
def Module.retime? (m : Module) (id : Nat) (delay : Node → Int) (goal : RetimingGoal) :
    Except RetimeError (Option (Module × RetimingReport)) := do
  if !m.hasRegisters then return none
  let name := m.invocation.moduleName
  match ← m.circuit? delay name with
  | none => return none
  | some c =>
    let initialPeriod ← (c.period .word).mapError (.ofGraph name)
    let (retimed, period) ← ModuleCircuit.retimeTo c goal name initialPeriod
    return some (← m.rebuild retimed, ⟨id, name, initialPeriod, period⟩)

/-- A retimed design, and a report for every module that has been rebuilt. -/
structure RetimedDesign where
  design : Design
  reports : List RetimingReport
  deriving Repr

/-- Adds a module, retimed if possible, to a retimed design. -/
def RetimedDesign.addModule (delay : Node → Int) (goal : RetimingGoal) (d : RetimedDesign)
    (m : Module) : Except RetimeError RetimedDesign := do
  match ← m.retime? d.design.modules.size delay goal with
  | none => return { d with design := d.design.addModule m }
  | some (m, report) => return ⟨d.design.addModule m, d.reports ++ [report]⟩

/-- Retimes all modules of a design. -/
def Design.retime (d : Design) (delay : Node → Int) (goal : RetimingGoal) :
    Except RetimeError RetimedDesign :=
  d.modules.toList.foldlM (RetimedDesign.addModule delay goal) ⟨⟨#[], d.entries⟩, []⟩

end NetlistCompiler
