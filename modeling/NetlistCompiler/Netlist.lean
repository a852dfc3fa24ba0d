import NetlistCompiler.Primitive

/-!
# Netlists

A module is the hardware built for one invocation: nodes with ports, and connections between single
wires. A wire is addressed by node, side, port and slot, and every wire has at most one driver.
-/

namespace NetlistCompiler

/-- A side of a node. -/
inductive Side where
  | input
  | output
  deriving Repr, DecidableEq, Inhabited

/-- A wire of a port: a data wire by its number, or a wire of the handshake. -/
inductive Slot where
  | data (leaf : Nat)
  | valid
  | ready
  deriving Repr, DecidableEq, Inhabited

/-- The address of a wire in a module. -/
structure Wire where
  node : Nat
  side : Side
  port : Nat
  slot : Slot
  deriving Repr, DecidableEq, Inhabited

/-- Whether the node gives the wire its value: data and valid on the output side, ready on the
input side. -/
def Wire.isProduced (w : Wire) : Bool :=
  match w.slot with
  | .data _ | .valid => w.side = .output
  | .ready => w.side = .input

/-- A wire that gives another one its value. -/
structure Connection where
  driver : Wire
  driven : Wire
  deriving Repr, DecidableEq, Inhabited

/-- What a node stands for. -/
inductive NodeKind where
  | input
  | output
  | pass
  | instance (module : Nat) (invocation : Invocation)
  | primitive (primitive : Primitive)
  deriving Repr

/-- A node of a module. -/
structure Node where
  name : String
  kind : NodeKind
  inputs : List Port
  outputs : List Port
  deriving Repr

namespace Node

/-- The ports on one side. -/
def ports (n : Node) : Side → List Port
  | .input => n.inputs
  | .output => n.outputs

/-- The ports on both sides. -/
def signature (n : Node) : Signature :=
  ⟨n.inputs, n.outputs⟩

/-- The place of the first port with a name. -/
def portNamed? (n : Node) (side : Side) (name : String) : Option Nat :=
  (n.ports side).findIdx? fun p => p.name == name

/-- The number of data wires on the output side. -/
def outputWidth (n : Node) : Nat :=
  n.outputs.foldl (fun width p => width + p.shape.width) 0

/-- Whether a node is a register. -/
def isRegister (n : Node) : Bool :=
  match n.kind with
  | .primitive p => p.isRegister
  | _ => false

end Node

/-- The hardware of one invocation. -/
structure Module where
  invocation : Invocation
  inputs : List Port
  outputs : List Port
  nodes : Array Node
  connections : Array Connection
  deriving Repr

/-- Why two wires cannot be connected. -/
inductive ConnectError where
  | alreadyDriven (driven existing : Wire)
  | invalidWire (driver driven : Wire)
  deriving Repr, DecidableEq

namespace ConnectError

def sideText : Side → String
  | .input => "Input"
  | .output => "Output"

def slotText : Slot → String
  | .data leaf => s!"Data({leaf})"
  | .valid => "Valid"
  | .ready => "Ready"

/-- A wire with the names of its coordinates. -/
def wireText (w : Wire) : String :=
  "WireRef \x7b node: NodeId(" ++ toString w.node ++ "), side: " ++ sideText w.side ++ ", port: " ++
    toString w.port ++ ", slot: " ++ slotText w.slot ++ " \x7d"

/-- The text of an error. -/
def message : ConnectError → String
  | alreadyDriven driven existing =>
    "wire " ++ wireText driven ++ " is already driven by " ++ wireText existing
  | invalidWire driver driven =>
    "invalid connection from " ++ wireText driver ++ " to " ++ wireText driven

end ConnectError

namespace Module

/-- A module without nodes. -/
def empty (invocation : Invocation) (inputs outputs : List Port) : Module :=
  ⟨invocation, inputs, outputs, #[], #[]⟩

/-- Adds a node, which gets the next number. -/
def addNode (m : Module) (node : Node) : Module :=
  { m with nodes := m.nodes.push node }

/-- The ports of a node on one side. -/
def portsOf (m : Module) (node : Nat) (side : Side) : List Port :=
  match m.nodes[node]? with
  | some n => n.ports side
  | none => []

/-- The port that a wire belongs to. -/
def port? (m : Module) (w : Wire) : Option Port :=
  (m.portsOf w.node w.side)[w.port]?

/-- Whether the module has a wire. -/
def hasWire (m : Module) (w : Wire) : Bool :=
  match m.port? w with
  | none => false
  | some p =>
    match w.slot with
    | .data leaf => leaf < p.shape.width
    | .valid | .ready => p.kind = .stream

/-- The wire that drives a wire. -/
def driver? (m : Module) (driven : Wire) : Option Wire :=
  (m.connections.find? fun c => c.driven = driven).map Connection.driver

/-- Connects two wires. The driver has to be produced by its node, the driven wire consumed. -/
def connect (m : Module) (driver driven : Wire) : Except ConnectError Module :=
  if !m.hasWire driver || !m.hasWire driven || !driver.isProduced || driven.isProduced then
    .error (.invalidWire driver driven)
  else
    match m.driver? driven with
    | some existing => .error (.alreadyDriven driven existing)
    | none => .ok { m with connections := m.connections.push ⟨driver, driven⟩ }

/-- Whether the node with a number is a register. -/
def isRegister (m : Module) (node : Nat) : Bool :=
  match m.nodes[node]? with
  | some n => n.isRegister
  | none => false

/-- Whether any node is a register. -/
def hasRegisters (m : Module) : Bool :=
  m.nodes.any Node.isRegister

/-- The number of registers. -/
def registerCount (m : Module) : Nat :=
  m.nodes.countP Node.isRegister

/-- The numbers of the nodes that satisfy a condition. -/
def nodesWhere (m : Module) (p : Node → Bool) : List Nat :=
  (List.range m.nodes.size).filter fun id => (m.nodes[id]?.map p).getD false

/-- The numbers of the nodes that stand for the inputs of the module. -/
def inputNodes (m : Module) : List Nat :=
  m.nodesWhere fun n => n.kind matches .input

/-- The numbers of the nodes that stand for the outputs of the module. -/
def outputNodes (m : Module) : List Nat :=
  m.nodesWhere fun n => n.kind matches .output

end Module

/-- The modules of a compilation, numbered in the order in which they were finished, and those that
were asked for. -/
structure Design where
  modules : Array Module
  entries : List Nat
  deriving Repr

namespace Design

def empty : Design :=
  ⟨#[], []⟩

/-- Adds a module, which gets the next number. -/
def addModule (d : Design) (m : Module) : Design :=
  { d with modules := d.modules.push m }

/-- Marks a module as asked for. -/
def addEntry (d : Design) (id : Nat) : Design :=
  if d.entries.contains id then d else { d with entries := d.entries ++ [id] }

/-- The number of the module built for an invocation. -/
def find? (d : Design) (i : Invocation) : Option Nat :=
  d.modules.findIdx? fun m => m.invocation.agrees i

end Design

end NetlistCompiler
