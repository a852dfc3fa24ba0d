import NetlistCompiler.BinaryOp
import NetlistCompiler.PortKind

/-!
# Programs

A program after name resolution. Every name is known to refer to something, and expressions are
told apart by what they stand for: compile-time integers, interfaces, generic values and nodes of a
circuit.
-/

namespace NetlistCompiler

/-- An expression whose value is known at compile time. -/
inductive StaticExpr where
  | int (value : Int64)
  | bool (value : Bool)
  | parameter (name : String)
  | binary (op : BinaryOp) (lhs rhs : StaticExpr)
  deriving Repr, Inhabited

mutual

/-- An expression that stands for an interface. -/
inductive InterfaceExpr where
  | wire
  | vector (element : InterfaceExpr) (size : StaticExpr)
  | generic (name : String)
  | defined (name : String) (interfaces : List InterfaceExpr) (parameters : List ArgumentExpr)
  deriving Repr

/-- An expression that stands for the value of a generic parameter other than an interface. -/
inductive ArgumentExpr where
  | static (value : StaticExpr)
  | instantiation (value : Instantiation)
  | reference (function : String)
  deriving Repr

/-- A function with expressions for its generic values. -/
structure Instantiation where
  function : String
  interfaces : List InterfaceExpr
  parameters : List ArgumentExpr
  deriving Repr

end

instance : Inhabited InterfaceExpr :=
  ⟨.wire⟩

/-- What a node is an instance of. -/
inductive NodeBody where
  | function (instantiation : Instantiation)
  | genericFunction (name : String)
  | interface (interface : InterfaceExpr)
  deriving Repr

/-- A step into a port. -/
inductive Accessor where
  | member (name : String)
  | index (index : StaticExpr)
  | slice (first last : StaticExpr)
  deriving Repr

/-- A node of a chain: a name with a path into it, a node declared here, a node without a name, or
a chain in parentheses. -/
inductive CircuitNode where
  | reference (name : String) (accessors : List Accessor)
  | declared (name : String) (body : NodeBody)
  | anonymous (body : NodeBody)
  | nested (chain : List (List CircuitNode))
  deriving Repr

/-- The stages of a connection, each a group of nodes. -/
abbrev Chain := List (List CircuitNode)

/-- A statement of a function body. -/
inductive Statement where
  | conditional (predicate : StaticExpr) (thenBody elseBody : List Statement)
  | connection (chain : Chain)
  deriving Repr

/-- What a generic parameter other than an interface stands for. -/
inductive ParameterType where
  | integer
  | function (inputs outputs : List InterfaceExpr)
  deriving Repr

/-- A generic parameter other than an interface. -/
structure Parameter where
  name : String
  type : ParameterType
  deriving Repr

/-- The generic parameters of a definition, interfaces apart from the rest. -/
structure Generics where
  interfaces : List String
  parameters : List Parameter
  deriving Repr

/-- Whether a definition has no generic parameters. -/
def Generics.isEmpty (g : Generics) : Bool :=
  g.interfaces.isEmpty && g.parameters.isEmpty

/-- What an interface definition stands for. -/
inductive InterfaceBody where
  | alias (interface : InterfaceExpr)
  | record (members : List (String × InterfaceExpr))
  deriving Repr

/-- A definition of an interface. -/
structure InterfaceDefinition where
  name : String
  generics : Generics
  body : InterfaceBody
  deriving Repr

/-- An input or output of a function. -/
structure FunctionPort where
  name : String
  kind : PortKind
  interface : InterfaceExpr
  deriving Repr

/-- A definition of a function. -/
structure FunctionDefinition where
  name : String
  generics : Generics
  inputs : List FunctionPort
  outputs : List FunctionPort
  statements : List Statement
  deriving Repr

/-- A program. -/
structure Program where
  interfaces : List InterfaceDefinition
  functions : List FunctionDefinition
  deriving Repr

namespace Program

/-- The first interface definition of a name. -/
def interface? (p : Program) (name : String) : Option InterfaceDefinition :=
  p.interfaces.find? fun d => d.name == name

/-- The first function definition of a name. -/
def function? (p : Program) (name : String) : Option FunctionDefinition :=
  p.functions.find? fun d => d.name == name

end Program

end NetlistCompiler
