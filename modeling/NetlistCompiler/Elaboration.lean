import NetlistCompiler.Expansion
import NetlistCompiler.Expansion.Names
import NetlistCompiler.Netlist
import NetlistCompiler.PortTree

/-!
# Elaboration

Elaboration builds a module for every invocation that is asked for and for every invocation that
such a module needs. A finished module is kept in the session and used again for invocations that
agree. A module is finished after the modules that it instantiates, and no module is instantiated
while it is being built.
-/

namespace NetlistCompiler

/-- What elaboration keeps between modules: the design so far, the number of the module of every
invocation built so far, the invocations being built, innermost first, and every name mentioned on
the way, in order. -/
structure Session where
  design : Design
  cache : List (Invocation × Nat)
  stack : List Invocation
  mentioned : Array String
  deriving Repr

namespace Session

def empty : Session :=
  ⟨.empty, [], [], #[]⟩

/-- The number of the module already built for an invocation. -/
def cached? (s : Session) (i : Invocation) : Option Nat :=
  (s.cache.find? fun entry => entry.1.agrees i).map Prod.snd

/-- Adds the finished module of an invocation. -/
def finish (s : Session) (i : Invocation) (m : Module) : Session :=
  { s with
    design := s.design.addModule m
    cache := (i, s.design.modules.size) :: s.cache }

end Session

/-- A step of elaboration: it changes the session, also when it fails, and has no result at all if
it goes too deep. -/
abbrev Elaborate := ExceptT BuildError (StateT Session Option)

/-- The step without a result. -/
def Elaborate.noResult : Elaborate α :=
  ExceptT.mk fun _ => none

/-- An expansion as a step that leaves the session alone. -/
def Elaborate.ofExpand (x : Expand α) : Elaborate α :=
  ExceptT.mk fun s => x.run.map fun r => (r, s)

/-- Runs a step with an invocation on the stack, which is taken off again also when the step
fails. -/
def Elaborate.whileBuilding (i : Invocation) (x : Elaborate α) : Elaborate α :=
  ExceptT.mk fun s => (x.run { s with stack := i :: s.stack }).map fun (r, s) =>
    (r, { s with stack := s.stack.tail })

/-- Takes note of mentioned names. -/
def Elaborate.mention (names : List String) : Elaborate Unit :=
  modify fun s => { s with mentioned := s.mentioned ++ names.toArray }

/-! ### Bodies of modules -/

/-- The module under construction: its nodes by name, innermost block first, and the number of
nodes without a name of their own. -/
structure Body where
  module : Module
  scopes : List (List (String × Nat))
  anonymous : Nat
  deriving Repr

/-- What the construction of a module does not change. -/
structure BodyContext where
  program : Program
  unfolding : Unfolding
  expansionNames : ExpansionNames
  bindings : Bindings
  label : String
  build : Invocation → Elaborate Nat

/-- A step of the construction of a module. -/
abbrev Construct := StateT Body Elaborate

/-- A port of a node as one end of a connection, possibly narrowed to a part of its tree. -/
structure Endpoint where
  node : Nat
  port : Nat
  tree : PortTree
  whole : Bool
  deriving Repr

/-- What a node or chain offers: input ports to be driven from the left, and output ports to drive
to the right. -/
structure Ends where
  sinks : List Endpoint
  sources : List Endpoint
  deriving Repr

def Ends.none : Ends :=
  ⟨[], []⟩

/-- The ends of two nodes of a group. -/
def Ends.append (a b : Ends) : Ends :=
  ⟨a.sinks ++ b.sinks, a.sources ++ b.sources⟩

namespace Body

/-- The ports of a node on one side as ends. -/
def endpoints (m : Module) (node : Nat) (side : Side) : List Endpoint :=
  (m.portsOf node side).mapIdx fun i p => ⟨node, i, .ofShape p.shape, true⟩

/-- All ports of a node as ends. -/
def endsOf (m : Module) (node : Nat) : Ends :=
  ⟨endpoints m node .input, endpoints m node .output⟩

/-- A port with its node. -/
def portText (m : Module) (node : Nat) (side : Side) (port : Nat) : String :=
  match m.nodes[node]? with
  | none => ""
  | some n =>
    match (n.ports side)[port]? with
    | none => n.name
    | some p => n.name ++ "." ++ p.name

/-- An end of a connection in words. -/
def endpointText (m : Module) (e : Endpoint) (side : Side) : String :=
  s!"`{portText m e.node side e.port}` ({e.tree.shape.describe})"

/-- A wire in words. -/
def wireText (m : Module) (w : Wire) : String :=
  let port := portText m w.node w.side w.port
  match w.slot with
  | .data leaf => s!"`{port}` bit {leaf}"
  | .valid => s!"`{port}` valid"
  | .ready => s!"`{port}` ready"

end Body

namespace Construct

variable (c : BodyContext)

/-- Adds a node to the module, whose wires are numbered with 32 bits. -/
def addNode (node : Node) : Construct Nat := do
  if node.signature.fits then
    let body ← get
    set { body with module := body.module.addNode node }
    return body.module.nodes.size
  else throw .portTooWide

/-- The node that a name refers to, in the innermost block that knows it. -/
def lookup (name : String) : Construct Nat := do
  match (← get).scopes.findSome? fun scope => scope.lookup name with
  | some id => return id
  | none => throw (.unresolvedNode c.label name)

/-- Gives a node a name in the innermost block. -/
def bindName (name : String) (id : Nat) : Construct Unit :=
  modify fun body =>
    match body.scopes with
    | [] => body
    | scope :: outer => { body with scopes := ((name, id) :: scope) :: outer }

/-- Adds an instance of an invocation. -/
def instantiate (name : String) (i : Invocation) : Construct Nat := do
  match ← c.program.callee i.function with
  | .primitive op =>
    let primitive ← Primitive.ofCall op i
    Elaborate.mention primitive.portNames
    let signature := primitive.signature
    addNode ⟨name, .primitive primitive, signature.inputs, signature.outputs⟩
  | .function _ =>
    let id ← c.build i
    let nested := (← getThe Session).design.modules[id]?
    addNode ⟨name, .instance id i, (nested.map Module.inputs).getD [],
      (nested.map Module.outputs).getD []⟩

/-- Adds a node of a chain. -/
def create (name : String) : NodeBody → Construct Nat
  | .function instantiation => do
    let i ← Elaborate.ofExpand (instantiation.expand c.program c.unfolding c.bindings)
    Elaborate.mention (instantiation.names c.program c.unfolding c.expansionNames c.bindings)
    instantiate c name i
  | .genericFunction parameter =>
    match c.bindings.functions.lookup parameter with
    | some i => instantiate c name i
    | none => throw (.unboundGeneric parameter)
  | .interface e => do
    let s ← Elaborate.ofExpand (e.expand c.program c.unfolding c.bindings)
    Elaborate.mention (e.names c.program c.unfolding c.expansionNames c.bindings [])
    let port := Port.signal name s
    addNode ⟨name, .pass, [port], [port]⟩

mutual

/-- Adds the nodes that a node of a chain declares. -/
def declare : CircuitNode → Construct Unit
  | .declared name body => do
    let id ← create c name body
    bindName name id
  | .nested chain => declareChain chain
  | .reference _ _ => return
  | .anonymous _ => return

def declareChain : List (List CircuitNode) → Construct Unit
  | [] => return
  | group :: rest => do
    declareGroup group
    declareChain rest

def declareGroup : List CircuitNode → Construct Unit
  | [] => return
  | node :: rest => do
    declare node
    declareGroup rest

end

/-- Adds the nodes that a block declares outside of its conditionals. -/
def declareBlock : List Statement → Construct Unit
  | [] => return
  | .connection chain :: rest => do
    declareChain c chain
    declareBlock rest
  | .conditional _ _ _ :: rest => declareBlock rest

/-! ### Access -/

/-- The length of a vector that is accessed. -/
def vectorLength (t : PortTree) (access : String) : Except BuildError Nat :=
  match t.length? with
  | some n => .ok n
  | none => .error (.typeMismatch s!"{access} access in `{c.label}`" "vector" t.shape.describe)

/-- An index of a vector of a given length. -/
def inRange (index : Int64) (length : Nat) : Except BuildError Nat :=
  if 0 ≤ index.toInt ∧ index.toInt < length then .ok index.toInt.toNat
  else .error (.indexOutOfRange c.label index length)

/-- One step into a tree. -/
def access (t : PortTree) : Accessor → Except BuildError PortTree
  | .member name =>
    match t.member? name with
    | some u => .ok u
    | none => .error (.unresolvedPort c.label name)
  | .index index => do
    let length ← vectorLength c t "index"
    let value ← index.eval c.bindings
    let i ← inRange c value length
    match t.item? i with
    | some u => .ok u
    | none => .error (.indexOutOfRange c.label value length)
  | .slice first last => do
    let length ← vectorLength c t "slice"
    let start ← first.eval c.bindings
    let stop ← last.eval c.bindings
    let i ← inRange c start length
    let j ← inRange c stop length
    if j < i then throw (.reversedSlice c.label start stop)
    match t.slice? i j with
    | some u => .ok u
    | none => .error (.indexOutOfRange c.label stop length)

/-- One step into an end. -/
def accessEndpoint (a : Accessor) (e : Endpoint) : Except BuildError Endpoint := do
  return { e with tree := ← access c e.tree a, whole := false }

/-- A path into all ends. -/
def accessEnds (ends : Ends) : List Accessor → Except BuildError Ends
  | [] => .ok ends
  | a :: rest => do
    let sinks ← ends.sinks.mapM (accessEndpoint c a)
    let sources ← ends.sources.mapM (accessEndpoint c a)
    accessEnds ⟨sinks, sources⟩ rest

/-- The ends on the ports of a node that have a name. -/
def selectPort (n : Node) (name : String) (ends : Ends) : Ends :=
  let named (side : Side) (e : Endpoint) : Bool :=
    ((n.ports side)[e.port]?.map fun p => p.name == name).getD false
  ⟨ends.sinks.filter (named .input), ends.sources.filter (named .output)⟩

/-- Whether a first member access picks a port of the node by name. -/
def hasNamedPorts (n : Node) : Bool :=
  match n.kind with
  | .instance _ _ | .primitive _ => true
  | _ => false

/-- The ends that a reference stands for. -/
def reference (name : String) (accessors : List Accessor) : Construct Ends := do
  let id ← lookup c name
  let m := (← get).module
  let ends := Body.endsOf m id
  match m.nodes[id]?, accessors with
  | some n, .member port :: rest =>
    if hasNamedPorts n then
      let selected := selectPort n port ends
      if selected.sinks.isEmpty && selected.sources.isEmpty then
        throw (.unresolvedPort c.label s!"{name}.{port}")
      accessEnds c selected rest
    else accessEnds c ends accessors
  | _, _ => accessEnds c ends accessors

/-! ### Connections -/

/-- Connects two wires. -/
def wire (driver driven : Wire) : Construct Unit := do
  let body ← get
  match body.module.connect driver driven with
  | .ok m => set { body with module := m }
  | .error (.alreadyDriven driven _) =>
    throw (.multipleDrivers c.label (Body.wireText body.module driven))
  | .error e => throw (.internal e.message)

/-- Whether an end is on a stream port. -/
def isStream (m : Module) (e : Endpoint) (side : Side) : Bool :=
  match (m.portsOf e.node side)[e.port]? with
  | some p => p.kind = .stream
  | none => false

/-- Connects an output to an input, wire by wire. Two whole streams also share a handshake. -/
def connect (source sink : Endpoint) : Construct Unit := do
  let m := (← get).module
  match source.tree.pairLeaves? sink.tree with
  | none =>
    throw (.connectionShape c.label (Body.endpointText m source .output)
      (Body.endpointText m sink .input))
  | some pairs =>
    pairs.forM fun (i, j) =>
      wire c ⟨source.node, .output, source.port, .data i⟩ ⟨sink.node, .input, sink.port, .data j⟩
    if source.whole && sink.whole && isStream m source .output && isStream m sink .input then
      wire c ⟨source.node, .output, source.port, .valid⟩ ⟨sink.node, .input, sink.port, .valid⟩
      wire c ⟨sink.node, .input, sink.port, .ready⟩ ⟨source.node, .output, source.port, .ready⟩

/-- Connects the outputs of a stage to the inputs of the next one. -/
def connectStage (sources sinks : List Endpoint) : Construct Unit := do
  if sources.length ≠ sinks.length then
    throw (.connectionShape c.label s!"{sources.length} output(s)" s!"{sinks.length} input(s)")
  (sources.zip sinks).forM fun (source, sink) => connect c source sink

/-- Connects each stage to the next one. -/
def connectStages : List Ends → Construct Unit
  | first :: second :: rest => do
    connectStage c first.sources second.sinks
    connectStages (second :: rest)
  | _ => return

/-- Connects the stages of a chain, which offers the inputs of its first and the outputs of its
last stage. -/
def joinStages (stages : List Ends) : Construct Ends := do
  connectStages c stages
  return ⟨(stages.headD .none).sinks, (stages.getLastD .none).sources⟩

/-- A name for a node without one. -/
def anonymousName : Construct String := do
  let body ← get
  let name := s!"anonymous_{body.anonymous}"
  set { body with anonymous := body.anonymous + 1 }
  Elaborate.mention [name]
  return name

mutual

/-- The ends of a node of a chain; a node without a name is added, and a chain in parentheses is
connected. -/
def node : CircuitNode → Construct Ends
  | .reference name accessors => reference c name accessors
  | .declared name _ => do
    let id ← lookup c name
    return Body.endsOf (← get).module id
  | .anonymous body => do
    let id ← create c (← anonymousName) body
    return Body.endsOf (← get).module id
  | .nested chain => do joinStages c (← stages chain)

def stages : List (List CircuitNode) → Construct (List Ends)
  | [] => return []
  | group :: rest => do
    let ends ← nodes group
    return ends :: (← stages rest)

def nodes : List CircuitNode → Construct Ends
  | [] => return .none
  | n :: rest => do
    let ends ← node n
    return ends.append (← nodes rest)

end

/-- Connects the stages of a chain. -/
def chain (groups : Chain) : Construct Ends := do
  joinStages c (← stages c groups)

/-- Runs steps in a block of their own. -/
def inBlock (steps : Construct Unit) : Construct Unit := do
  modify fun body => { body with scopes := [] :: body.scopes }
  steps
  modify fun body => { body with scopes := body.scopes.tail }

mutual

/-- Builds a statement; of a conditional, only the taken branch. -/
def statement : Statement → Construct Unit
  | .connection groups => do
    let _ ← chain c groups
  | .conditional predicate thenBody elseBody => do
    if (← predicate.eval c.bindings) ≠ 0 then
      inBlock do
        declareBlock c thenBody
        statements thenBody
    else
      inBlock do
        declareBlock c elseBody
        statements elseBody

def statements : List Statement → Construct Unit
  | [] => return
  | s :: rest => do
    statement s
    statements rest

end

/-- Builds the body of a function: a node for every port of the module, then the statements. -/
def function (inputs outputs : List Port) (body : List Statement) : Construct Unit := do
  inputs.forM fun p => do bindName p.name (← addNode ⟨p.name, .input, [], [p]⟩)
  outputs.forM fun p => do bindName p.name (← addNode ⟨p.name, .output, [p], []⟩)
  inBlock do
    declareBlock c body
    statements c body

end Construct

/-! ### Modules -/

/-- Connects all data wires of an output to those of an input of the same shape. -/
def Module.connectPort (m : Module) (source sink : Wire) (width : Nat) : Except ConnectError Module :=
  (List.range width).foldlM
    (fun m leaf => m.connect { source with slot := .data leaf } { sink with slot := .data leaf }) m

/-- Adds a node for an input of the module and connects it to a port of node 0. -/
def Module.exposeInput (m : Module) (port : Port) (index : Nat) : Except ConnectError Module :=
  let id := m.nodes.size
  (m.addNode ⟨port.name, .input, [], [port]⟩).connectPort ⟨id, .output, 0, .valid⟩
    ⟨0, .input, index, .valid⟩ port.shape.width

/-- Adds a node for an output of the module and connects it to a port of node 0. -/
def Module.exposeOutput (m : Module) (port : Port) (index : Nat) : Except ConnectError Module :=
  let id := m.nodes.size
  (m.addNode ⟨port.name, .output, [port], []⟩).connectPort ⟨0, .output, index, .valid⟩
    ⟨id, .input, 0, .valid⟩ port.shape.width

/-- A module that holds one primitive and exposes its ports. -/
def Module.ofPrimitive (i : Invocation) (primitive : Primitive) : Except ConnectError Module := do
  let ⟨inputs, outputs⟩ := primitive.signature
  let m := (Module.empty i inputs outputs).addNode
    ⟨primitive.op.name, .primitive primitive, inputs, outputs⟩
  let m ← inputs.zipIdx.foldlM (fun m (port, index) => m.exposeInput port index) m
  outputs.zipIdx.foldlM (fun m (port, index) => m.exposeOutput port index) m

/-- Builds the module of an invocation, where `build` builds the modules that it instantiates. -/
def Invocation.construct (p : Program) (depth : Nat) (build : Invocation → Elaborate Nat)
    (i : Invocation) : Elaborate Module := do
  let u := p.unfolding depth
  let ns := p.expansionNames depth
  match ← p.callee i.function with
  | .primitive op =>
    let primitive ← Primitive.ofCall op i
    Elaborate.mention (primitive.portNames ++ [primitive.op.name])
    if primitive.signature.fits then
      match Module.ofPrimitive i primitive with
      | .ok m => return m
      | .error e => throw (.internal e.message)
    else throw .portTooWide
  | .function d =>
    let b ← Elaborate.ofExpand (d.generics.bind p u d.name i.interfaces i.parameters)
    let signature ← Elaborate.ofExpand (d.signature p u b)
    Elaborate.mention (d.generics.names p u ns b ++ d.names p u ns b)
    let c : BodyContext := ⟨p, u, ns, b, i.describe, build⟩
    let body : Body := ⟨.empty i signature.inputs signature.outputs, [[]], 0⟩
    let (_, body) ← (Construct.function c signature.inputs signature.outputs d.statements).run body
    return body.module

/-- Builds the module of an invocation unless there is one already, and gives its number. An
invocation that is being built is not built inside itself. -/
def Invocation.build (p : Program) : Nat → Invocation → Elaborate Nat
  | 0, _ => Elaborate.noResult
  | depth + 1, i => do
    let s ← get
    match s.cached? i with
    | some id => return id
    | none =>
      if s.stack.any fun j => j.agrees i then throw (.recursiveInstantiation i.describe)
      let m ← Elaborate.whileBuilding i (i.construct p depth (Invocation.build p depth))
      let s ← get
      set (s.finish i m)
      return s.design.modules.size

/-- Builds the module of a function without generic parameters and makes it an entry. -/
def FunctionDefinition.buildEntry (p : Program) (depth : Nat) (d : FunctionDefinition) :
    Elaborate Unit := do
  let id ← Invocation.build p depth (.plain d.name)
  modify fun s => { s with design := s.design.addEntry id }

/-- Builds every function without generic parameters, and everything that they use. -/
def Program.buildAll (p : Program) (depth : Nat) : Elaborate Unit :=
  (p.functions.filter fun d => d.generics.isEmpty).forM (FunctionDefinition.buildEntry p depth)

/-- The depth to which the compiler follows definitions. -/
def depthLimit : Nat := 1000000

/-- The session after building a program, `none` if it goes too deep. -/
def Program.elaborate (p : Program) : Option (Except BuildError Session) :=
  match (p.buildAll depthLimit).run .empty with
  | none => none
  | some (.ok _, s) => some (.ok s)
  | some (.error e, _) => some (.error e)

end NetlistCompiler
