import NetlistCompiler.Resolution

/-!
# The names of a surface program

The order in which name resolution mentions the names of a program. Definitions come first; inside a
definition, everything that it declares comes before what its parts refer to.
-/

namespace NetlistCompiler.Surface

mutual

/-- The names in an expression, from left to right. -/
def Expr.names : Expr → List String
  | .atom name arguments => name :: Expr.listNames arguments
  | .wire | .truth _ | .literal _ => []
  | .access accessed accessor => accessed.names ++ accessor.names
  | .parenthesized inner => inner.names
  | .binary _ lhs rhs => lhs.names ++ rhs.names

def Accessor.names : Accessor → List String
  | .item index => index.names
  | .slice first last => first.names ++ last.names
  | .member name => [name]

def Expr.listNames : List Expr → List String
  | [] => []
  | e :: rest => e.names ++ Expr.listNames rest

end

mutual

/-- The names in a node; a declared name follows its type. -/
def Node.names : Node → List String
  | .lone e => e.names
  | .declared name type => type.names ++ [name]
  | .parentheses chain => Node.chainNames chain

def Node.chainNames : List (List Node) → List String
  | [] => []
  | group :: rest => Node.groupNames group ++ Node.chainNames rest

def Node.groupNames : List Node → List String
  | [] => []
  | node :: rest => node.names ++ Node.groupNames rest

end

mutual

/-- The names in a statement. A branch mentions what it declares first. -/
def Statement.names : Statement → List String
  | .connection chain => Node.chainNames chain
  | .conditional predicate thenBody elseBody =>
    predicate.names ++
      (Resolution.blockNames thenBody ++ Statement.listNames thenBody) ++
      (Resolution.blockNames elseBody ++ Statement.listNames elseBody)

def Statement.listNames : List Statement → List String
  | [] => []
  | s :: rest => s.names ++ Statement.listNames rest

end

def Parameter.names (p : Parameter) : List String :=
  p.name :: match p.type with
    | .integer | .interface => []
    | .function inputs outputs => Expr.listNames inputs ++ Expr.listNames outputs

def InterfaceDefinition.names (d : InterfaceDefinition) : List String :=
  d.name :: d.parameters.map Parameter.name ++ d.parameters.flatMap Parameter.names ++
    match d.body with
    | .alias interface => interface.names
    | .record members => members.flatMap fun m => m.name :: m.type.names

def FunctionPort.names (p : FunctionPort) : List String :=
  p.name :: p.type.names

def FunctionDefinition.names (d : FunctionDefinition) : List String :=
  d.name :: d.parameters.map Parameter.name ++ d.inputs.map FunctionPort.name ++
    d.outputs.map FunctionPort.name ++ Resolution.blockNames d.statements ++
    d.parameters.flatMap Parameter.names ++ d.inputs.flatMap FunctionPort.names ++
    d.outputs.flatMap FunctionPort.names ++ Statement.listNames d.statements

/-- The names of a program, as often as they are mentioned. -/
def Program.names (p : Program) : List String :=
  p.interfaces.map InterfaceDefinition.name ++ p.functions.map FunctionDefinition.name ++
    p.interfaces.flatMap InterfaceDefinition.names ++ p.functions.flatMap FunctionDefinition.names

end NetlistCompiler.Surface
