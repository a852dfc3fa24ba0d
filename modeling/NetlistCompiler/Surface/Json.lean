import NetlistCompiler.Surface
import NetlistCompiler.Json.Record

/-!
# Surface programs as JSON

Every alternative is tagged with a word in lower case; records have the field names that the front
end writes. Writing puts down every field. Reading gives an absent field its default where it has
one: no parameters, no ports, no statements, an empty branch, a signal port.
-/

namespace NetlistCompiler

/-! ### Writing -/

def PortKind.word : PortKind → String
  | .signal => "signal"
  | .stream => "stream"

namespace Surface

mutual

def Expr.toJson : Expr → Json
  | .atom name arguments =>
    .tagged "atom" (.object [("identifier", .string name),
      ("parameter_values", .array (Expr.listToJson arguments))])
  | .wire => .string "wire"
  | .truth true => .string "true"
  | .truth false => .string "false"
  | .literal value => .tagged "int_literal" (.int value.toInt)
  | .access accessed accessor =>
    .tagged "accessor" (.object [("accessed", accessed.toJson), ("accessor", accessor.toJson)])
  | .parenthesized inner => .tagged "parenthesized" inner.toJson
  | .binary op lhs rhs =>
    .tagged "binary" (.object [("op", .string op.word), ("lhs", lhs.toJson), ("rhs", rhs.toJson)])

def Accessor.toJson : Accessor → Json
  | .item index => .tagged "vector_item" (.object [("index", index.toJson)])
  | .slice first last =>
    .tagged "vector_slice" (.object [("start", first.toJson), ("end", last.toJson)])
  | .member name => .tagged "member" (.object [("port_identifier", .string name)])

def Expr.listToJson : List Expr → List Json
  | [] => []
  | e :: rest => e.toJson :: Expr.listToJson rest

end

mutual

def Node.toJson : Node → Json
  | .lone expr => .tagged "lone" expr.toJson
  | .declared name type =>
    .tagged "declared" (.object [("declared_identifier", .string name), ("type", type.toJson)])
  | .parentheses chain =>
    .tagged "parentheses" (.object [("connected_groups", .array (Node.groupsToJson chain))])

def Node.groupsToJson : List (List Node) → List Json
  | [] => []
  | group :: rest =>
    .object [("grouped_nodes", .array (Node.listToJson group))] :: Node.groupsToJson rest

def Node.listToJson : List Node → List Json
  | [] => []
  | node :: rest => node.toJson :: Node.listToJson rest

end

def Chain.toJson (chain : Chain) : Json :=
  .object [("connected_groups", .array (Node.groupsToJson chain))]

mutual

def Statement.toJson : Statement → Json
  | .conditional predicate thenBody elseBody =>
    .tagged "conditional" (.object [("predicate", predicate.toJson),
      ("if_body", .array (Statement.listToJson thenBody)),
      ("else_body", .array (Statement.listToJson elseBody))])
  | .connection chain => .tagged "non_conditional" (Chain.toJson chain)

def Statement.listToJson : List Statement → List Json
  | [] => []
  | s :: rest => s.toJson :: Statement.listToJson rest

end

def ParameterType.toJson : ParameterType → Json
  | .integer => .string "integer"
  | .interface => .string "interface"
  | .function inputs outputs =>
    .tagged "function" (.object [("inputs", .ofList Expr.toJson inputs),
      ("outputs", .ofList Expr.toJson outputs)])

def Parameter.toJson (p : Parameter) : Json :=
  .object [("declared_identifier", .string p.name), ("type", p.type.toJson)]

def Member.toJson (m : Member) : Json :=
  .object [("declared_identifier", .string m.name), ("interface_type", m.type.toJson)]

def InterfaceDefinition.toJson (d : InterfaceDefinition) : Json :=
  match d.body with
  | .alias interface =>
    .tagged "alias" (.object [("declared_identifier", .string d.name),
      ("parameter_definitions", .ofList Parameter.toJson d.parameters),
      ("aliased_interface", interface.toJson)])
  | .record members =>
    .tagged "record" (.object [("declared_identifier", .string d.name),
      ("parameter_definitions", .ofList Parameter.toJson d.parameters),
      ("ports", .ofList Member.toJson members)])

def FunctionPort.toJson (p : FunctionPort) : Json :=
  .object [("declared_identifier", .string p.name), ("interface_type", p.type.toJson),
    ("kind", .string p.kind.word)]

def FunctionDefinition.toJson (d : FunctionDefinition) : Json :=
  .object [("declared_identifier", .string d.name),
    ("parameter_definitions", .ofList Parameter.toJson d.parameters),
    ("inputs", .ofList FunctionPort.toJson d.inputs),
    ("outputs", .ofList FunctionPort.toJson d.outputs),
    ("statements", .ofList Statement.toJson d.statements)]

def Program.toJson (p : Program) : Json :=
  .object [("interface_definitions", .ofList InterfaceDefinition.toJson p.interfaces),
    ("function_definitions", .ofList FunctionDefinition.toJson p.functions)]

/-! ### Reading -/

mutual

/-- The expression that a value describes. -/
def Expr.ofJson? (j : Json) : Option Expr := do
  let (tag, body) ← j.variant?
  match tag with
  | "atom" =>
    let parts ← body.record? ["identifier", "parameter_values"]
    let name ← (← parts.lookup "identifier").1.string?
    let arguments ← (← Json.itemsOr (parts.lookup "parameter_values")).mapM fun p => Expr.ofJson? p.1
    return .atom name arguments
  | "wire" => if body.1 matches .null then return .wire else none
  | "true" => if body.1 matches .null then return .truth true else none
  | "false" => if body.1 matches .null then return .truth false else none
  | "int_literal" => return .literal (← body.1.int64?)
  | "accessor" =>
    let parts ← body.record? ["accessed", "accessor"]
    let accessed ← parts.lookup "accessed"
    let accessor ← parts.lookup "accessor"
    return .access (← Expr.ofJson? accessed.1) (← Accessor.ofJson? accessor.1)
  | "parenthesized" => return .parenthesized (← Expr.ofJson? body.1)
  | "binary" =>
    let parts ← body.record? ["op", "lhs", "rhs"]
    let (op, unit) ← (← parts.lookup "op").1.variant?
    if !(unit.1 matches .null) then none
    let lhs ← parts.lookup "lhs"
    let rhs ← parts.lookup "rhs"
    return .binary (← BinaryOp.ofWord? op) (← Expr.ofJson? lhs.1) (← Expr.ofJson? rhs.1)
  | _ => none
termination_by sizeOf j
decreasing_by all_goals exact Json.Part.sizeOf_lt _

/-- The accessor that a value describes. -/
def Accessor.ofJson? (j : Json) : Option Accessor := do
  let (tag, body) ← j.variant?
  match tag with
  | "vector_item" =>
    let parts ← body.record? ["index"]
    let index ← parts.lookup "index"
    return .item (← Expr.ofJson? index.1)
  | "vector_slice" =>
    let parts ← body.record? ["start", "end"]
    let first ← parts.lookup "start"
    let last ← parts.lookup "end"
    return .slice (← Expr.ofJson? first.1) (← Expr.ofJson? last.1)
  | "member" =>
    let parts ← body.record? ["port_identifier"]
    return .member (← (← parts.lookup "port_identifier").1.string?)
  | _ => none
termination_by sizeOf j
decreasing_by all_goals exact Json.Part.sizeOf_lt _

end

/-- The nodes of the stages of a chain, as parts of the chain's value. -/
def Chain.parts? {j : Json} (p : Json.Part j) : Option (List (List (Json.Part j))) := do
  let parts ← p.record? ["connected_groups"]
  let groups ← (← parts.lookup "connected_groups").items?
  groups.mapM fun group => do
    let parts ← group.record? ["grouped_nodes"]
    (← parts.lookup "grouped_nodes").items?

/-- The node that a value describes. -/
def Node.ofJson? (j : Json) : Option Node := do
  let (tag, body) ← j.variant?
  match tag with
  | "lone" => return .lone (← Expr.ofJson? body.1)
  | "declared" =>
    let parts ← body.record? ["declared_identifier", "type"]
    let name ← (← parts.lookup "declared_identifier").1.string?
    return .declared name (← Expr.ofJson? (← parts.lookup "type").1)
  | "parentheses" =>
    let groups ← Chain.parts? body
    return .parentheses (← groups.mapM fun group => group.mapM fun p => Node.ofJson? p.1)
  | _ => none
termination_by sizeOf j
decreasing_by exact Json.Part.sizeOf_lt _

/-- The chain that a part describes. -/
def Chain.ofPart? {j : Json} (p : Json.Part j) : Option Chain := do
  (← Chain.parts? p).mapM fun group => group.mapM fun q => Node.ofJson? q.1

/-- The statement that a value describes. -/
def Statement.ofJson? (j : Json) : Option Statement := do
  let (tag, body) ← j.variant?
  match tag with
  | "conditional" =>
    let parts ← body.record? ["predicate", "if_body", "else_body"]
    let predicate ← Expr.ofJson? (← parts.lookup "predicate").1
    let thenBody ← (← (← parts.lookup "if_body").items?).mapM fun p => Statement.ofJson? p.1
    let elseBody ← (← Json.itemsOr (parts.lookup "else_body")).mapM fun p => Statement.ofJson? p.1
    return .conditional predicate thenBody elseBody
  | "non_conditional" => return .connection (← Chain.ofPart? body)
  | _ => none
termination_by sizeOf j
decreasing_by all_goals exact Json.Part.sizeOf_lt _

/-- The list that an array describes item by item. -/
def listOfJson? {j : Json} (read : Json → Option α) (p : Json.Part j) : Option (List α) := do
  (← p.items?).mapM fun q => read q.1

/-- The list that an optional array describes, empty if the array is absent. -/
def listOr {j : Json} (read : Json → Option α) (p : Option (Json.Part j)) : Option (List α) := do
  (← Json.itemsOr p).mapM fun q => read q.1

def ParameterType.ofJson? (j : Json) : Option ParameterType := do
  let (tag, body) ← j.variant?
  match tag with
  | "integer" => if body.1 matches .null then return .integer else none
  | "interface" => if body.1 matches .null then return .interface else none
  | "function" =>
    let parts ← body.record? ["inputs", "outputs"]
    let inputs ← listOfJson? Expr.ofJson? (← parts.lookup "inputs")
    let outputs ← listOfJson? Expr.ofJson? (← parts.lookup "outputs")
    return .function inputs outputs
  | _ => none

def Parameter.ofJson? (j : Json) : Option Parameter := do
  let parts ← j.record? ["declared_identifier", "type"]
  let name ← (← parts.lookup "declared_identifier").1.string?
  return ⟨name, ← ParameterType.ofJson? (← parts.lookup "type").1⟩

def Member.ofJson? (j : Json) : Option Member := do
  let parts ← j.record? ["declared_identifier", "interface_type"]
  let name ← (← parts.lookup "declared_identifier").1.string?
  return ⟨name, ← Expr.ofJson? (← parts.lookup "interface_type").1⟩

def InterfaceDefinition.ofJson? (j : Json) : Option InterfaceDefinition := do
  let (tag, body) ← j.variant?
  match tag with
  | "alias" =>
    let parts ← body.record? ["declared_identifier", "parameter_definitions", "aliased_interface"]
    let name ← (← parts.lookup "declared_identifier").1.string?
    let parameters ← listOr Parameter.ofJson? (parts.lookup "parameter_definitions")
    return ⟨name, parameters, .alias (← Expr.ofJson? (← parts.lookup "aliased_interface").1)⟩
  | "record" =>
    let parts ← body.record? ["declared_identifier", "parameter_definitions", "ports"]
    let name ← (← parts.lookup "declared_identifier").1.string?
    let parameters ← listOr Parameter.ofJson? (parts.lookup "parameter_definitions")
    return ⟨name, parameters, .record (← listOfJson? Member.ofJson? (← parts.lookup "ports"))⟩
  | _ => none

def portKindOfJson? (j : Json) : Option PortKind := do
  let (tag, body) ← j.variant?
  match tag with
  | "signal" => if body.1 matches .null then return .signal else none
  | "stream" => if body.1 matches .null then return .stream else none
  | _ => none

def FunctionPort.ofJson? (j : Json) : Option FunctionPort := do
  let parts ← j.record? ["declared_identifier", "interface_type", "kind"]
  let name ← (← parts.lookup "declared_identifier").1.string?
  let type ← Expr.ofJson? (← parts.lookup "interface_type").1
  let kind ← match parts.lookup "kind" with
    | none => some .signal
    | some p => portKindOfJson? p.1
  return ⟨name, type, kind⟩

def FunctionDefinition.ofJson? (j : Json) : Option FunctionDefinition := do
  let parts ← j.record?
    ["declared_identifier", "parameter_definitions", "inputs", "outputs", "statements"]
  let name ← (← parts.lookup "declared_identifier").1.string?
  let parameters ← listOr Parameter.ofJson? (parts.lookup "parameter_definitions")
  let inputs ← listOr FunctionPort.ofJson? (parts.lookup "inputs")
  let outputs ← listOr FunctionPort.ofJson? (parts.lookup "outputs")
  let statements ← listOr Statement.ofJson? (parts.lookup "statements")
  return ⟨name, parameters, inputs, outputs, statements⟩

/-- The program that a value describes. -/
def Program.ofJson? (j : Json) : Option Program := do
  let parts ← j.record? ["interface_definitions", "function_definitions"]
  let interfaces ← listOr InterfaceDefinition.ofJson? (parts.lookup "interface_definitions")
  let functions ← listOr FunctionDefinition.ofJson? (parts.lookup "function_definitions")
  return ⟨interfaces, functions⟩

end Surface

end NetlistCompiler
