import NetlistCompiler.Primitive

/-!
# Scopes

A scope is a stack of frames, innermost first. A frame declares names for one construct of a
program; within a frame every name is declared once, and no name of a primitive is declared at all.
-/

namespace NetlistCompiler

/-- What a name refers to. -/
inductive Declaration where
  | interface
  | function
  | genericInterface
  | integerParameter
  | functionParameter
  | input
  | output
  | node
  | primitive
  deriving Repr, DecidableEq, Inhabited

/-- Every kind of declaration. -/
def Declaration.all : List Declaration :=
  [.interface, .function, .genericInterface, .integerParameter, .functionParameter, .input,
    .output, .node, .primitive]

/-- The declaration in words. -/
def Declaration.describe : Declaration → String
  | .interface => "interface"
  | .function => "function"
  | .genericInterface => "interface parameter"
  | .integerParameter => "integer parameter"
  | .functionParameter => "function parameter"
  | .input => "input"
  | .output => "output"
  | .node => "node"
  | .primitive => "predefined function"

/-- The construct that a frame belongs to. -/
inductive FrameKind where
  | program
  | function (name : String)
  | interface (name : String)
  | conditional
  deriving Repr, DecidableEq, Inhabited

/-- The declarations of one construct, in order. -/
structure Frame where
  kind : FrameKind
  symbols : List (String × Declaration)
  deriving Repr, Inhabited

/-- The frames that surround a place in a program, innermost first. -/
abbrev Scope := List Frame

/-- Why a program cannot be resolved. -/
inductive ResolveError where
  | unresolvedSymbol (name : String)
  | redeclaration (name scope : String)
  | typeMismatch (expected found : String)
  deriving Repr, DecidableEq

/-- The text of an error. -/
def ResolveError.message : ResolveError → String
  | unresolvedSymbol name => s!"unresolved symbol `{name}`"
  | redeclaration name scope => s!"redeclaration of `{name}` in {scope}"
  | typeMismatch expected found => s!"expected {expected}, found {found}"

/-- The first name that is declared a second time or belongs to a primitive, given the names seen
so far. -/
def Frame.redeclared? (seen : List String) : List (String × Declaration) → Option String
  | [] => none
  | (name, _) :: rest =>
    if seen.contains name || (PrimitiveOp.ofName? name).isSome then some name
    else redeclared? (name :: seen) rest

namespace Scope

/-- The innermost construct in words. -/
def describe : Scope → String
  | [] => ""
  | frame :: outer =>
    match frame.kind with
    | .program => "program"
    | .function name => s!"function `{name}`"
    | .interface name => s!"interface `{name}`"
    | .conditional =>
      match outer with
      | [] => "conditional block"
      | _ :: _ => s!"conditional block of {describe outer}"

/-- Opens a frame inside a scope. -/
def enter (outer : Scope) (kind : FrameKind) (symbols : List (String × Declaration)) :
    Except ResolveError Scope :=
  let scope : Scope := ⟨kind, symbols⟩ :: outer
  match Frame.redeclared? [] symbols with
  | some name => .error (.redeclaration name scope.describe)
  | none => .ok scope

/-- The declaration of a name in the innermost frame. -/
def local? (scope : Scope) (name : String) : Option Declaration :=
  match scope with
  | [] => none
  | frame :: _ => frame.symbols.lookup name

/-- The innermost declaration of a name. -/
def find? (scope : Scope) (name : String) : Option Declaration :=
  scope.findSome? fun frame => frame.symbols.lookup name

/-- What a name refers to: its innermost declaration, or a primitive. -/
def resolve (scope : Scope) (name : String) : Except ResolveError Declaration :=
  match find? scope name with
  | some declaration => .ok declaration
  | none =>
    if (PrimitiveOp.ofName? name).isSome then .ok .primitive
    else .error (.unresolvedSymbol name)

end Scope

end NetlistCompiler
