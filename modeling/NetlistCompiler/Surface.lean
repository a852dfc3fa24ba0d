import NetlistCompiler.BinaryOp
import NetlistCompiler.PortKind

/-!
# Surface programs

A program as the front end hands it over: names are plain strings and nothing is resolved yet. One
kind of expression serves as type, size, predicate, index, generic value and circuit node; name
resolution tells them apart.
-/

namespace NetlistCompiler.Surface

mutual

/-- An expression. -/
inductive Expr where
  | atom (name : String) (arguments : List Expr)
  | wire
  | truth (value : Bool)
  | literal (value : Int64)
  | access (accessed : Expr) (accessor : Accessor)
  | parenthesized (inner : Expr)
  | binary (op : BinaryOp) (lhs rhs : Expr)
  deriving Repr, Inhabited

/-- What is taken out of the accessed expression. On an interface, an item access makes a vector. -/
inductive Accessor where
  | item (index : Expr)
  | slice (first last : Expr)
  | member (name : String)
  deriving Repr, Inhabited

end

/-- A node of a chain. A chain in parentheses counts as one node. -/
inductive Node where
  | lone (expr : Expr)
  | declared (name : String) (type : Expr)
  | parentheses (chain : List (List Node))
  deriving Repr, Inhabited

/-- The stages of a connection, each a group of nodes. -/
abbrev Chain := List (List Node)

/-- A statement of a function body. -/
inductive Statement where
  | conditional (predicate : Expr) (thenBody elseBody : List Statement)
  | connection (chain : Chain)
  deriving Repr, Inhabited

/-- What a generic parameter stands for. -/
inductive ParameterType where
  | integer
  | interface
  | function (inputs outputs : List Expr)
  deriving Repr, Inhabited

/-- A generic parameter. -/
structure Parameter where
  name : String
  type : ParameterType
  deriving Repr, Inhabited

/-- A member of a record interface. -/
structure Member where
  name : String
  type : Expr
  deriving Repr, Inhabited

/-- What an interface definition stands for. -/
inductive InterfaceBody where
  | alias (interface : Expr)
  | record (members : List Member)
  deriving Repr, Inhabited

/-- A definition of an interface. -/
structure InterfaceDefinition where
  name : String
  parameters : List Parameter
  body : InterfaceBody
  deriving Repr, Inhabited

/-- An input or output of a function. -/
structure FunctionPort where
  name : String
  type : Expr
  kind : PortKind
  deriving Repr, Inhabited

/-- A definition of a function. -/
structure FunctionDefinition where
  name : String
  parameters : List Parameter
  inputs : List FunctionPort
  outputs : List FunctionPort
  statements : List Statement
  deriving Repr, Inhabited

/-- A program. -/
structure Program where
  interfaces : List InterfaceDefinition
  functions : List FunctionDefinition
  deriving Repr, Inhabited

/-! ### Short forms -/

/-- A name without generic values. -/
def Expr.name (n : String) : Expr :=
  .atom n []

/-- The vector of `size` elements. -/
def Expr.vector (element size : Expr) : Expr :=
  .access element (.item size)

/-- The vector of `size` wires. -/
def Expr.wires (size : Expr) : Expr :=
  .vector .wire size

/-- One item of a vector. -/
def Expr.item (e index : Expr) : Expr :=
  .access e (.item index)

/-- The items from `first` to `last`. -/
def Expr.slice (e first last : Expr) : Expr :=
  .access e (.slice first last)

/-- A member of a record. -/
def Expr.member (e : Expr) (name : String) : Expr :=
  .access e (.member name)

/-- Connects nodes in a row, one node in each stage. -/
def Statement.connect (nodes : List Node) : Statement :=
  .connection (nodes.map fun node => [node])

end NetlistCompiler.Surface
