import NetlistCompiler.Json
import NetlistCompiler.Program

/-!
# Programs as JSON

The writer of names is a parameter: names stand as strings, or as places in a symbol table.
-/

namespace NetlistCompiler

/-- The word for an operator in written programs. -/
def BinaryOp.capitalized : BinaryOp → String
  | mul => "Mul"
  | div => "Div"
  | add => "Add"
  | sub => "Sub"
  | lt => "Lt"
  | gt => "Gt"
  | le => "Le"
  | ge => "Ge"
  | eq => "Eq"
  | ne => "Ne"
  | and => "And"
  | or => "Or"

/-- The word for a port kind in written programs and netlists. -/
def PortKind.capitalized : PortKind → String
  | .signal => "Signal"
  | .stream => "Stream"

variable (name : String → Json)

def StaticExpr.toJson : StaticExpr → Json
  | .int value => .tagged "Int" (.int value.toInt)
  | .bool value => .tagged "Bool" (.bool value)
  | .parameter p => .tagged "Param" (name p)
  | .binary op lhs rhs =>
    .tagged "Binary" (.object [("op", .string op.capitalized), ("lhs", lhs.toJson),
      ("rhs", rhs.toJson)])

mutual

def InterfaceExpr.toJson : InterfaceExpr → Json
  | .wire => .string "Wire"
  | .vector element size =>
    .tagged "Vector" (.object [("element", element.toJson), ("size", size.toJson name)])
  | .generic n => .tagged "Generic" (name n)
  | .defined n interfaces parameters =>
    .tagged "Defined" (.object [("name", name n),
      ("interfaces", .array (InterfaceExpr.listToJson interfaces)),
      ("parameters", .array (ArgumentExpr.listToJson parameters))])

def InterfaceExpr.listToJson : List InterfaceExpr → List Json
  | [] => []
  | e :: rest => e.toJson :: InterfaceExpr.listToJson rest

def ArgumentExpr.toJson : ArgumentExpr → Json
  | .static value => .tagged "Static" (value.toJson name)
  | .instantiation value => .tagged "Instantiation" value.toJson
  | .reference f => .tagged "FunctionReference" (name f)

def ArgumentExpr.listToJson : List ArgumentExpr → List Json
  | [] => []
  | a :: rest => a.toJson :: ArgumentExpr.listToJson rest

def Instantiation.toJson : Instantiation → Json
  | ⟨function, interfaces, parameters⟩ =>
    .object [("function", name function),
      ("interfaces", .array (InterfaceExpr.listToJson interfaces)),
      ("parameters", .array (ArgumentExpr.listToJson parameters))]

end

def NodeBody.toJson : NodeBody → Json
  | .function i => .tagged "Function" (i.toJson name)
  | .genericFunction f => .tagged "GenericFunction" (name f)
  | .interface e => .tagged "Interface" (e.toJson name)

def Accessor.toJson : Accessor → Json
  | .member m => .tagged "Member" (name m)
  | .index i => .tagged "Index" (i.toJson name)
  | .slice first last => .tagged "Slice" (.array [first.toJson name, last.toJson name])

mutual

def CircuitNode.toJson : CircuitNode → Json
  | .reference n accessors =>
    .tagged "Reference" (.object [("name", name n),
      ("accessors", .ofList (Accessor.toJson name) accessors)])
  | .declared n body =>
    .tagged "Declared" (.object [("name", name n), ("body", body.toJson name)])
  | .anonymous body => .tagged "Anonymous" (body.toJson name)
  | .nested chain =>
    .tagged "Nested" (.object [("groups", .array (CircuitNode.groupsToJson chain))])

def CircuitNode.groupsToJson : List (List CircuitNode) → List Json
  | [] => []
  | group :: rest =>
    .object [("nodes", .array (CircuitNode.listToJson group))] :: CircuitNode.groupsToJson rest

def CircuitNode.listToJson : List CircuitNode → List Json
  | [] => []
  | node :: rest => node.toJson :: CircuitNode.listToJson rest

end

mutual

def Statement.toJson : Statement → Json
  | .conditional predicate thenBody elseBody =>
    .tagged "Conditional" (.object [("predicate", predicate.toJson name),
      ("if_body", .array (Statement.listToJson thenBody)),
      ("else_body", .array (Statement.listToJson elseBody))])
  | .connection chain =>
    .tagged "Connection" (.object [("groups", .array (CircuitNode.groupsToJson name chain))])

def Statement.listToJson : List Statement → List Json
  | [] => []
  | s :: rest => s.toJson :: Statement.listToJson rest

end

def ParameterType.toJson : ParameterType → Json
  | .integer => .string "Integer"
  | .function inputs outputs =>
    .tagged "Function" (.object [("inputs", .ofList (InterfaceExpr.toJson name) inputs),
      ("outputs", .ofList (InterfaceExpr.toJson name) outputs)])

def Parameter.toJson (p : Parameter) : Json :=
  .object [("name", name p.name), ("ty", p.type.toJson name)]

def Generics.toJson (g : Generics) : Json :=
  .object [("interfaces", .ofList name g.interfaces),
    ("parameters", .ofList (Parameter.toJson name) g.parameters)]

def InterfaceBody.toJson : InterfaceBody → Json
  | .alias e => .tagged "Alias" (e.toJson name)
  | .record members =>
    .tagged "Record" (.ofList (fun (n, e) => .array [name n, e.toJson name]) members)

def InterfaceDefinition.toJson (d : InterfaceDefinition) : Json :=
  .object [("name", name d.name), ("generics", d.generics.toJson name),
    ("body", d.body.toJson name)]

def FunctionPort.toJson (p : FunctionPort) : Json :=
  .object [("name", name p.name), ("kind", .string p.kind.capitalized),
    ("interface", p.interface.toJson name)]

def FunctionDefinition.toJson (d : FunctionDefinition) : Json :=
  .object [("name", name d.name), ("generics", d.generics.toJson name),
    ("inputs", .ofList (FunctionPort.toJson name) d.inputs),
    ("outputs", .ofList (FunctionPort.toJson name) d.outputs),
    ("statements", .ofList (Statement.toJson name) d.statements)]

def Program.toJson (p : Program) : Json :=
  .object [("interfaces", .ofList (InterfaceDefinition.toJson name) p.interfaces),
    ("functions", .ofList (FunctionDefinition.toJson name) p.functions)]

end NetlistCompiler
