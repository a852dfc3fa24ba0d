import NetlistCompiler.Program
import NetlistCompiler.Scope
import NetlistCompiler.Surface

/-!
# Name resolution

Resolution checks every name of a surface program against its scope and tells expressions apart.
The nodes that a block declares are visible in the whole block, also before their declaration.
-/

namespace NetlistCompiler

namespace Resolution

open Surface (Expr)

/-- A generic value is an interface or the value of another parameter. -/
inductive GenericValue where
  | interface (value : InterfaceExpr)
  | parameter (value : ArgumentExpr)
  deriving Repr

/-- The interfaces and the other values of a list, each in order. -/
def split : List GenericValue → List InterfaceExpr × List ArgumentExpr
  | [] => ([], [])
  | .interface e :: rest => (e :: (split rest).1, (split rest).2)
  | .parameter a :: rest => ((split rest).1, a :: (split rest).2)

def mismatch (expected found : String) : Except ResolveError α :=
  .error (.typeMismatch expected found)

/-- A declared name in words. -/
def declared (declaration : Declaration) (name : String) : String :=
  s!"{declaration.describe} `{name}`"

/-- The compile-time integer that an expression stands for. -/
def staticExpr (scope : Scope) : Expr → Except ResolveError StaticExpr
  | .literal value => .ok (.int value)
  | .truth value => .ok (.bool value)
  | .parenthesized inner => staticExpr scope inner
  | .binary op lhs rhs => do
    let l ← staticExpr scope lhs
    let r ← staticExpr scope rhs
    return .binary op l r
  | .atom name arguments => do
    match ← scope.resolve name with
    | .integerParameter =>
      if arguments.isEmpty then return .parameter name
      else mismatch "static expression" (declared .integerParameter name)
    | declaration => mismatch "static expression" (declared declaration name)
  | .wire => mismatch "static expression" "`wire`"
  | .access _ _ => mismatch "static expression" "accessor"

mutual

/-- The interface that an expression stands for. -/
def interface (scope : Scope) : Expr → Except ResolveError InterfaceExpr
  | .wire => .ok .wire
  | .atom name arguments => do
    match ← scope.resolve name with
    | .genericInterface =>
      if arguments.isEmpty then return .generic name
      else mismatch "interface" (declared .genericInterface name)
    | .interface =>
      let (interfaces, parameters) := split (← genericValues scope arguments)
      return .defined name interfaces parameters
    | declaration => mismatch "interface" (declared declaration name)
  | .access accessed (.item index) => do
    let element ← interface scope accessed
    return .vector element (← staticExpr scope index)
  | .access _ _ => mismatch "interface" "member or slice access"
  | .parenthesized inner => interface scope inner
  | .truth _ | .literal _ | .binary _ _ _ => mismatch "interface" "static expression"

/-- The generic value that an expression stands for. -/
def genericValue (scope : Scope) : Expr → Except ResolveError GenericValue
  | .literal value => .ok (.parameter (.static (.int value)))
  | .truth value => .ok (.parameter (.static (.bool value)))
  | .binary op lhs rhs => do
    return .parameter (.static (← staticExpr scope (.binary op lhs rhs)))
  | .parenthesized inner => genericValue scope inner
  | .wire => .ok (.interface .wire)
  | .access accessed (.item index) => do
    let element ← interface scope accessed
    return .interface (.vector element (← staticExpr scope index))
  | .access _ _ => mismatch "interface" "member or slice access"
  | .atom name arguments => do
    match ← scope.resolve name with
    | .function | .primitive =>
      let (interfaces, parameters) := split (← genericValues scope arguments)
      return .parameter (.instantiation ⟨name, interfaces, parameters⟩)
    | .integerParameter =>
      if arguments.isEmpty then return .parameter (.static (.parameter name))
      else mismatch "static expression" (declared .integerParameter name)
    | .functionParameter =>
      if arguments.isEmpty then return .parameter (.reference name)
      else mismatch "generic value" (declared .functionParameter name)
    | .genericInterface =>
      if arguments.isEmpty then return .interface (.generic name)
      else mismatch "interface" (declared .genericInterface name)
    | .interface =>
      let (interfaces, parameters) := split (← genericValues scope arguments)
      return .interface (.defined name interfaces parameters)
    | declaration => mismatch "generic value" (declared declaration name)

def genericValues (scope : Scope) : List Expr → Except ResolveError (List GenericValue)
  | [] => .ok []
  | e :: rest => do
    let value ← genericValue scope e
    return value :: (← genericValues scope rest)

end

/-- The function instance that a name with generic values stands for. -/
def instantiation (scope : Scope) (name : String) (arguments : List Expr) :
    Except ResolveError Instantiation := do
  let (interfaces, parameters) := split (← genericValues scope arguments)
  return ⟨name, interfaces, parameters⟩

def accessor (scope : Scope) : Surface.Accessor → Except ResolveError Accessor
  | .member name => .ok (.member name)
  | .item index => do return .index (← staticExpr scope index)
  | .slice first last => do
    let first ← staticExpr scope first
    return .slice first (← staticExpr scope last)

/-- The node that an expression in a chain stands for: a reference or a node without a name. -/
def lone (scope : Scope) : Expr → Except ResolveError CircuitNode
  | .atom name arguments => do
    match ← scope.resolve name with
    | .interface | .genericInterface =>
      return .anonymous (.interface (← interface scope (.atom name arguments)))
    | .function | .primitive =>
      return .anonymous (.function (← instantiation scope name arguments))
    | .functionParameter =>
      if arguments.isEmpty then return .anonymous (.genericFunction name)
      else mismatch "function parameter without generic values" (declared .functionParameter name)
    | .integerParameter => mismatch "circuit node" (declared .integerParameter name)
    | declaration =>
      if arguments.isEmpty then return .reference name []
      else mismatch "reference without generic values" (declared declaration name)
  | .access accessed step => do
    match ← lone scope accessed with
    | .reference name accessors => return .reference name (accessors ++ [← accessor scope step])
    | .anonymous (.interface element) =>
      match step with
      | .item index => return .anonymous (.interface (.vector element (← staticExpr scope index)))
      | _ => mismatch "vector size on an interface" "member or slice access"
    | _ => mismatch "port or node reference" "access on a function instance"
  | .wire => .ok (.anonymous (.interface .wire))
  | .parenthesized inner => lone scope inner
  | .truth _ | .literal _ | .binary _ _ _ => mismatch "circuit node" "static expression"

mutual

/-- The node that a node of a surface chain stands for. -/
def node (scope : Scope) : Surface.Node → Except ResolveError CircuitNode
  | .lone e => lone scope e
  | .declared name type => do
    match ← lone scope type with
    | .anonymous body => return .declared name body
    | _ =>
      mismatch "function or interface as node type" s!"reference in the declaration of `{name}`"
  | .parentheses groups => do return .nested (← chain scope groups)

def chain (scope : Scope) : List (List Surface.Node) → Except ResolveError Chain
  | [] => .ok []
  | group :: rest => do
    let nodes ← nodes scope group
    return nodes :: (← chain scope rest)

def nodes (scope : Scope) : List Surface.Node → Except ResolveError (List CircuitNode)
  | [] => .ok []
  | n :: rest => do
    let n ← node scope n
    return n :: (← nodes scope rest)

end

mutual

/-- The names that a node of a chain declares. -/
def declaredNames : Surface.Node → List String
  | .lone _ => []
  | .declared name _ => [name]
  | .parentheses groups => chainNames groups

def chainNames : List (List Surface.Node) → List String
  | [] => []
  | group :: rest => groupNames group ++ chainNames rest

def groupNames : List Surface.Node → List String
  | [] => []
  | n :: rest => declaredNames n ++ groupNames rest

end

/-- The names that a block declares outside of its conditionals. -/
def blockNames : List Surface.Statement → List String
  | [] => []
  | .connection groups :: rest => chainNames groups ++ blockNames rest
  | .conditional _ _ _ :: rest => blockNames rest

/-- The declarations of the nodes of a block. -/
def blockSymbols (statements : List Surface.Statement) : List (String × Declaration) :=
  (blockNames statements).map fun name => (name, .node)

mutual

def statement (scope : Scope) : Surface.Statement → Except ResolveError Statement
  | .conditional predicate thenBody elseBody => do
    let predicate ← staticExpr scope predicate
    let inner ← scope.enter .conditional (blockSymbols thenBody)
    let thenBody ← statements inner thenBody
    let inner ← scope.enter .conditional (blockSymbols elseBody)
    let elseBody ← statements inner elseBody
    return .conditional predicate thenBody elseBody
  | .connection groups => do return .connection (← chain scope groups)

def statements (scope : Scope) : List Surface.Statement → Except ResolveError (List Statement)
  | [] => .ok []
  | s :: rest => do
    let s ← statement scope s
    return s :: (← statements scope rest)

end

/-- The declarations of generic parameters. -/
def parameterSymbols (parameters : List Surface.Parameter) : List (String × Declaration) :=
  parameters.map fun p =>
    (p.name, match p.type with
      | .integer => .integerParameter
      | .interface => .genericInterface
      | .function _ _ => .functionParameter)

def generics (scope : Scope) : List Surface.Parameter → Except ResolveError Generics
  | [] => .ok ⟨[], []⟩
  | p :: rest => do
    match p.type with
    | .interface =>
      let g ← generics scope rest
      return { g with interfaces := p.name :: g.interfaces }
    | .integer =>
      let g ← generics scope rest
      return { g with parameters := ⟨p.name, .integer⟩ :: g.parameters }
    | .function inputs outputs =>
      let inputs ← inputs.mapM (interface scope)
      let outputs ← outputs.mapM (interface scope)
      let g ← generics scope rest
      return { g with parameters := ⟨p.name, .function inputs outputs⟩ :: g.parameters }

/-- The members of a record, given the names of the members before them. -/
def members (scope : Scope) (owner : String) (seen : List String) :
    List Surface.Member → Except ResolveError (List (String × InterfaceExpr))
  | [] => .ok []
  | m :: rest => do
    if seen.contains m.name then throw (.redeclaration m.name s!"interface `{owner}`")
    let e ← interface scope m.type
    return (m.name, e) :: (← members scope owner (m.name :: seen) rest)

def interfaceDefinition (outer : Scope) (d : Surface.InterfaceDefinition) :
    Except ResolveError InterfaceDefinition := do
  let scope ← outer.enter (.interface d.name) (parameterSymbols d.parameters)
  let generics ← generics scope d.parameters
  let body ← match d.body with
    | .alias e => do pure (InterfaceBody.alias (← interface scope e))
    | .record ms => do pure (InterfaceBody.record (← members scope d.name [] ms))
  return ⟨d.name, generics, body⟩

def functionPort (scope : Scope) (p : Surface.FunctionPort) : Except ResolveError FunctionPort := do
  return ⟨p.name, p.kind, ← interface scope p.type⟩

/-- The declarations of a function: parameters, inputs, outputs and nodes. -/
def functionSymbols (d : Surface.FunctionDefinition) : List (String × Declaration) :=
  parameterSymbols d.parameters ++ d.inputs.map (fun p => (p.name, .input)) ++
    d.outputs.map (fun p => (p.name, .output)) ++ blockSymbols d.statements

def functionDefinition (outer : Scope) (d : Surface.FunctionDefinition) :
    Except ResolveError FunctionDefinition := do
  let scope ← outer.enter (.function d.name) (functionSymbols d)
  let generics ← generics scope d.parameters
  let inputs ← d.inputs.mapM (functionPort scope)
  let outputs ← d.outputs.mapM (functionPort scope)
  let statements ← statements scope d.statements
  return ⟨d.name, generics, inputs, outputs, statements⟩

/-- The declarations of a program. -/
def programSymbols (p : Surface.Program) : List (String × Declaration) :=
  p.interfaces.map (fun d => (d.name, .interface)) ++
    p.functions.map (fun d => (d.name, .function))

end Resolution

/-- The program that a surface program stands for. -/
def Surface.Program.resolve (p : Surface.Program) : Except ResolveError NetlistCompiler.Program := do
  let scope ← Scope.enter [] .program (Resolution.programSymbols p)
  let interfaces ← p.interfaces.mapM (Resolution.interfaceDefinition scope)
  let functions ← p.functions.mapM (Resolution.functionDefinition scope)
  return ⟨interfaces, functions⟩

end NetlistCompiler
