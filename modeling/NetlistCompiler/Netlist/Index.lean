import NetlistCompiler.Netlist

/-!
# Indexed netlists

A module under construction keeps, next to its connections, the place of the connection of every
driven wire, so that the driver of a wire is looked up and not searched for. It is changed by edits,
which may fail.
-/

namespace NetlistCompiler

/-- A module with the place of the connection of every driven wire. -/
structure IndexedModule where
  module : Module
  places : List (Wire × Nat)
  deriving Repr

namespace IndexedModule

/-- The places of the driven wires, with the last connection first. -/
def placesOf (connections : List Connection) : List (Wire × Nat) :=
  connections.foldl (fun places c => (c.driven, places.length) :: places) []

/-- A module with its index. -/
def ofModule (m : Module) : IndexedModule :=
  ⟨m, placesOf m.connections.toList⟩

/-- A module without nodes. -/
def empty (invocation : Invocation) (inputs outputs : List Port) : IndexedModule :=
  .ofModule (.empty invocation inputs outputs)

/-- The wire that drives a wire. -/
def driver? (m : IndexedModule) (driven : Wire) : Option Wire := do
  let place ← m.places.lookup driven
  let connection ← m.module.connections[place]?
  return connection.driver

end IndexedModule

/-- A change of a module that may fail. -/
abbrev Edit := ExceptT ConnectError (StateM IndexedModule)

namespace Edit

/-- The outcome of a change, and the module after it. -/
def apply {α : Type} (e : Edit α) (m : IndexedModule) : Except ConnectError α × IndexedModule :=
  e.run.run m

/-- Adds a node and returns its number. -/
def addNode (node : Node) : Edit Nat := do
  let m ← get
  set { m with module := m.module.addNode node }
  return m.module.nodes.size

/-- Connects two wires. The driver has to be produced by its node, the driven wire consumed. -/
def connect (driver driven : Wire) : Edit Unit := do
  let m ← get
  unless m.module.hasWire driver && m.module.hasWire driven && driver.isProduced &&
      !driven.isProduced do
    throw (.invalidWire driver driven)
  if let some existing := m.driver? driven then
    throw (.alreadyDriven driven existing)
  set { m with places := (driven, m.module.connections.size) :: m.places }
  modify fun m =>
    { m with module.connections := m.module.connections.push ⟨driver, driven⟩ }

end Edit

end NetlistCompiler
