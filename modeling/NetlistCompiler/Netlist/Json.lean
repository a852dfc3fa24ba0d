import NetlistCompiler.Netlist
import NetlistCompiler.Primitive.Json
import NetlistCompiler.Program.Json

/-!
# Netlists as JSON

The writer of names is a parameter: names stand as strings, or as places in a symbol table.
-/

namespace NetlistCompiler

variable (name : String → Json)

mutual

def Invocation.toJson : Invocation → Json
  | ⟨function, interfaces, parameters⟩ =>
    .object [("function", name function),
      ("interfaces", .ofList (Shape.toJson name) interfaces),
      ("parameters", .array (Argument.listToJson parameters))]

def Argument.toJson : Argument → Json
  | .integer value => .tagged "Integer" (.int value.toInt)
  | .function i => .tagged "Function" i.toJson

def Argument.listToJson : List Argument → List Json
  | [] => []
  | a :: rest => a.toJson :: Argument.listToJson rest

end

/-- The word for a side in written netlists. -/
def Side.capitalized : Side → String
  | .input => "Input"
  | .output => "Output"

def Slot.toJson : Slot → Json
  | .data leaf => .tagged "Data" (.ofNat leaf)
  | .valid => .string "Valid"
  | .ready => .string "Ready"

def Wire.toJson (w : Wire) : Json :=
  .object [("node", .ofNat w.node), ("side", .string w.side.capitalized), ("port", .ofNat w.port),
    ("slot", w.slot.toJson)]

def Connection.toJson (c : Connection) : Json :=
  .object [("driver", c.driver.toJson), ("driven", c.driven.toJson)]

/-- The name, shape and kind of a port. -/
def Port.members (p : Port) : List (String × Json) :=
  [("name", name p.name), ("structure", p.shape.toJson name), ("kind", .string p.kind.capitalized)]

/-- A port of a module. -/
def Port.toJson (p : Port) : Json :=
  .object (p.members name)

/-- A port of a node, with its place and its numbered wires. -/
def Port.toJsonAt (node : Nat) (side : Side) (p : Port) (index : Nat) : Json :=
  .object (p.members name ++
    [("parent", .object [("node", .ofNat node), ("side", .string side.capitalized),
      ("index", .ofNat index)]), ("tree", (PortTree.ofShape p.shape).toJson name)])

def NodeKind.toJson : NodeKind → Json
  | .input => .string "ModuleInput"
  | .output => .string "ModuleOutput"
  | .pass => .string "PassThrough"
  | .instance module i =>
    .tagged "Invocation" (.object [("module", .ofNat module), ("invocation", i.toJson name)])
  | .primitive p => .tagged "Predefined" (p.toJson name)

/-- A node with its number. -/
def Node.toJson (n : Node) (id : Nat) : Json :=
  .object [("name", name n.name), ("kind", n.kind.toJson name),
    ("inputs", .array (n.inputs.zipIdx.map fun (p, i) => p.toJsonAt name id .input i)),
    ("outputs", .array (n.outputs.zipIdx.map fun (p, i) => p.toJsonAt name id .output i))]

/-- Numbered things. -/
def numberedJson (items : List Json) : Json :=
  .object [("items", .array items)]

def Module.toJson (m : Module) : Json :=
  .object [("invocation", m.invocation.toJson name),
    ("inputs", .ofList (Port.toJson name) m.inputs),
    ("outputs", .ofList (Port.toJson name) m.outputs),
    ("nodes", numberedJson (m.nodes.toList.zipIdx.map fun (n, id) => n.toJson name id)),
    ("connections", .ofList Connection.toJson m.connections.toList)]

def Design.toJson (d : Design) : Json :=
  .object [("modules", numberedJson (d.modules.toList.map (Module.toJson name))),
    ("entries", .ofList .ofNat d.entries)]

end NetlistCompiler
