import NetlistCompiler.Circuit
import NetlistCompiler.Netlist
import NetlistCompiler.WeightedGraph.Dot

/-!
# The circuit of a module

The vertices of the circuit are the nodes of the module that are no registers. Every data
connection into such a node is followed back through registers to the node it comes from.
Connections with the same source node, sink node and number of registers form one edge, whose
weight is the number of registers.
-/

namespace NetlistCompiler

/-- Why a module cannot be retimed. -/
inductive RetimeError where
  | graph (module : String) (cause : GraphError)
  | targetUnreachable (module : String) (target period : Int)
  | unknownDelayFunction (name : String)
  | internal (cause : String)
  deriving Repr, DecidableEq

namespace RetimeError

/-- The text of an error. -/
def message : RetimeError → String
  | graph module cause => s!"cannot retime `{module}`: {cause.message}"
  | targetUnreachable module target period =>
    s!"clock period {target} is unreachable for `{module}` (current period {period})"
  | unknownDelayFunction name => s!"delay model names unknown function `{name}`"
  | internal cause => internalErrorText cause

/-- An error of the circuit as an error of its module. -/
def ofGraph (module : String) : GraphError → RetimeError
  | .internal cause => internal cause
  | cause => graph module cause

end RetimeError

/-- A circuit whose vertices are numbers of nodes and whose edges are bundles of connections. -/
abbrev ModuleCircuit := Circuit Nat (List Connection)

/-- A connection that starts behind some registers. -/
structure TracedConnection where
  connection : Connection
  registers : Nat
  deriving Repr, DecidableEq

namespace TracedConnection

/-- The source node, the sink node and the number of registers. -/
def key (t : TracedConnection) : Nat × Nat × Nat :=
  (t.connection.driver.node, t.connection.driven.node, t.registers)

/-- The order of source nodes, then of sink nodes, then of numbers of registers. -/
def keyLE (a b : Nat × Nat × Nat) : Bool :=
  a.1 < b.1 || a.1 == b.1 && (a.2.1 < b.2.1 || a.2.1 == b.2.1 && a.2.2 ≤ b.2.2)

end TracedConnection

namespace Module

/-- The wire that a wire comes from on the other side of all registers, and their number. There is
none if a register is not driven or the limit on their number is exceeded. -/
def traceBack (m : Module) : Nat → Wire → Option (Wire × Nat)
  | limit, w =>
    if m.isRegister w.node then
      match limit, w.slot with
      | limit + 1, .data leaf =>
        match m.driver? ⟨w.node, .input, 0, .data leaf⟩ with
        | none => none
        | some driver => (m.traceBack limit driver).map fun (source, n) => (source, n + 1)
      | _, _ => none
    else some (w, 0)

/-- Whether a connection carries data into a node that is no register. -/
def isDataPath (m : Module) (c : Connection) : Bool :=
  c.driven.slot matches .data _ && !m.isRegister c.driven.node

/-- A connection followed back through at most as many registers as the module has nodes, and one
more. -/
def traced? (m : Module) (c : Connection) : Option TracedConnection :=
  (m.traceBack (m.nodes.size + 1) c.driver).map fun (source, n) => ⟨⟨source, c.driven⟩, n⟩

/-- The data connections between nodes that are no registers, followed back. -/
def tracedConnections? (m : Module) : Option (List TracedConnection) :=
  (m.connections.toList.filter m.isDataPath).mapM m.traced?

/-- The numbers of the nodes that are no registers. -/
def combinationalNodes (m : Module) : List Nat :=
  m.nodesWhere fun n => !n.isRegister

/-- The place of a node among the vertices. -/
def vertexOf (m : Module) (node : Nat) : Except RetimeError Nat :=
  match m.combinationalNodes.idxOf? node with
  | some v => .ok v
  | none => .error (.internal s!"node NodeId({node}) has no circuit graph counterpart")

/-- The graph with a vertex for every node that is no register. -/
def circuitVertices (m : Module) (delay : Node → Int) : WeightedGraph Nat (List Connection) :=
  m.combinationalNodes.foldl
    (fun g id => g.addVertex ((m.nodes[id]?.map delay).getD 0) id) .empty

/-- Adds the edge of all traced connections with a key. -/
def addBundle (m : Module) (traced : List TracedConnection)
    (g : WeightedGraph Nat (List Connection)) (key : Nat × Nat × Nat) :
    Except RetimeError (WeightedGraph Nat (List Connection)) := do
  let source ← m.vertexOf key.1
  let sink ← m.vertexOf key.2.1
  let bundle := (traced.filter fun t => t.key == key).map TracedConnection.connection
  match g.addEdge? source sink key.2.2 bundle with
  | some g => return g
  | none => throw (.internal s!"node NodeId({key.1}) has no circuit graph counterpart")

/-- The circuit of a module, or none if some data path cannot be followed back. The name is that of
the module in errors. -/
def circuit? (m : Module) (delay : Node → Int) (name : String) :
    Except RetimeError (Option ModuleCircuit) := do
  match m.tracedConnections? with
  | none => return none
  | some traced =>
    let keys := ((traced.map TracedConnection.key).mergeSort TracedConnection.keyLE).eraseReps
    let g ← keys.foldlM (m.addBundle traced) (m.circuitVertices delay)
    match Circuit.ofGraph g with
    | .ok c => return some c
    | .error e => throw (.ofGraph name e)

/-- The label of a node in a drawing. -/
def vertexLabel (m : Module) (id : Nat) : String :=
  match m.nodes[id]? with
  | none => ""
  | some n =>
    match n.kind with
    | .primitive p => n.name ++ ": " ++ p.op.name
    | _ => n.name

/-- The circuit of a module in the DOT language. -/
def circuitDot (m : Module) (c : ModuleCircuit) (name : String) : String :=
  c.graph.toDot name m.vertexLabel

end Module

end NetlistCompiler
