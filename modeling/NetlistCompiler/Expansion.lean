import NetlistCompiler.Bindings
import NetlistCompiler.Primitive

/-!
# Expansion

Expansion turns interface expressions and instantiations into concrete shapes and invocations.
Opening a definition needs the expansion of what it mentions, and checking a function value against
its declared signature needs the ports of that function, so expansion is written against an
`Unfolding`, which says how definitions are opened one level further down. `unfolding` ties the
knot for a given depth: a run that would go deeper has no result.
-/

namespace NetlistCompiler

/-- The outcome of an expansion: a value, an error, or nothing if it goes too deep. -/
abbrev Expand := ExceptT BuildError Option

/-- The outcome of a run that goes too deep. -/
def Expand.tooDeep : Expand α :=
  ExceptT.mk none

/-- How definitions are opened: the shape of an interface definition for generic values, given the
names of the definitions being opened, and the ports of an invocation. -/
structure Unfolding where
  interface : List String → InterfaceDefinition → List Shape → List Argument → Expand Shape
  ports : Invocation → Expand Signature

/-- What an invocation calls. -/
inductive Callee where
  | function (definition : FunctionDefinition)
  | primitive (op : PrimitiveOp)
  deriving Repr

/-- The definition of a name, or else the primitive of that name. -/
def Program.callee (p : Program) (name : String) : Except BuildError Callee :=
  match p.function? name with
  | some d => .ok (.function d)
  | none =>
    match PrimitiveOp.ofName? name with
    | some op => .ok (.primitive op)
    | none => .error (.unknownFunction name)

/-- A shape whose width fits in 32 bits. -/
def Shape.checkWidth (s : Shape) : Except BuildError Shape :=
  if s.wireCount ≤ Shape.maxWidth then .ok s
  else .error (.sizeTooLarge (min s.fullWidth maxInt64))

section

variable (p : Program) (u : Unfolding) (b : Bindings)

mutual

/-- The shape of an interface expression, given the names of the definitions being opened. -/
def InterfaceExpr.expandIn (active : List String) : InterfaceExpr → Expand Shape
  | .wire => return .wire
  | .vector element size => do
    let n ← toSize (← size.eval b)
    return .vector (← element.expandIn active) n
  | .generic name =>
    match b.interfaces.lookup name with
    | some s => return s
    | none => throw (.unboundGeneric name)
  | .defined name interfaces parameters => do
    match p.interface? name with
    | none => throw (.unknownInterface name)
    | some d =>
      if active.contains name then throw (.recursiveInstantiation name)
      let shapes ← InterfaceExpr.expandListIn active interfaces
      let arguments ← ArgumentExpr.expandList parameters
      u.interface active d shapes arguments

def InterfaceExpr.expandListIn (active : List String) : List InterfaceExpr → Expand (List Shape)
  | [] => return []
  | e :: rest => do
    let s ← e.expandIn active
    return s :: (← InterfaceExpr.expandListIn active rest)

/-- The value of a generic parameter. -/
def ArgumentExpr.expand : ArgumentExpr → Expand Argument
  | .static value => do return .integer (← value.eval b)
  | .instantiation value => do return .function (← value.expand)
  | .reference name =>
    match b.functions.lookup name with
    | some i => return .function i
    | none => throw (.unboundGeneric name)

def ArgumentExpr.expandList : List ArgumentExpr → Expand (List Argument)
  | [] => return []
  | a :: rest => do
    let value ← a.expand
    return value :: (← ArgumentExpr.expandList rest)

/-- The invocation that an instantiation stands for. -/
def Instantiation.expand : Instantiation → Expand Invocation
  | ⟨function, interfaces, parameters⟩ => do
    let shapes ← InterfaceExpr.expandPorts interfaces
    return ⟨function, shapes, ← ArgumentExpr.expandList parameters⟩

/-- The shapes of expressions that stand on their own, each of a width that fits in 32 bits. -/
def InterfaceExpr.expandPorts : List InterfaceExpr → Expand (List Shape)
  | [] => return []
  | e :: rest => do
    let s ← (← e.expandIn []).checkWidth
    return s :: (← InterfaceExpr.expandPorts rest)

end

/-- The shape of an expression that stands on its own; its width has to fit in 32 bits. -/
def InterfaceExpr.expand (e : InterfaceExpr) : Expand Shape := do
  (← e.expandIn p u b []).checkWidth

/-- The ports that a function declares on one side. -/
def FunctionPort.expandList (ports : List FunctionPort) : Expand (List Port) :=
  ports.mapM fun port => do
    return ⟨port.name, ← port.interface.expand p u b, port.kind⟩

end

/-! ### Binding generic values -/

namespace Generics

/-- A parameter of a definition in words. -/
def parameterText (owner name : String) : String :=
  s!"parameter `{name}` of `{owner}`"

/-- Binds integers and functions to parameters of their kind. -/
def bindParameters (owner : String) (b : Bindings) :
    List Parameter → List Argument → Except BuildError Bindings
  | q :: qs, a :: as =>
    match q.type, a with
    | .integer, .integer value => bindParameters owner (b.bindInteger q.name value) qs as
    | .function _ _, .function i => bindParameters owner (b.bindFunction q.name i) qs as
    | .integer, .function i =>
      .error (.typeMismatch (parameterText owner q.name) "integer" s!"function `{i.describe}`")
    | .function _ _, .integer value =>
      .error (.typeMismatch (parameterText owner q.name) "function" s!"integer {value.toInt}")
  | _, _ => .ok b

/-- Binds generic values place by place, without a look at the signatures of functions. -/
def bindValues (g : Generics) (owner : String) (interfaces : List Shape)
    (parameters : List Argument) : Except BuildError Bindings :=
  if interfaces.length ≠ g.interfaces.length then
    .error (.genericArity owner "interface" g.interfaces.length interfaces.length)
  else if parameters.length ≠ g.parameters.length then
    .error (.genericArity owner "parameter" g.parameters.length parameters.length)
  else
    let b := (g.interfaces.zip interfaces).foldl (fun b (name, s) => b.bindInterface name s) .empty
    bindParameters owner b g.parameters parameters

/-- A signature in words. -/
def signatureText (inputs outputs : List Shape) : String :=
  "(" ++ ", ".intercalate (inputs.map Shape.describe) ++ ") => (" ++
    ", ".intercalate (outputs.map Shape.describe) ++ ")"

/-- Checks that the function bound to a parameter has the declared signature. -/
def checkSignature (p : Program) (u : Unfolding) (owner : String) (b : Bindings) (q : Parameter) :
    Expand Unit := do
  match q.type, b.functions.lookup q.name with
  | .function inputs outputs, some i =>
    let inputs ← InterfaceExpr.expandPorts p u b inputs
    let outputs ← InterfaceExpr.expandPorts p u b outputs
    let found ← u.ports i
    let foundInputs := found.inputs.map Port.shape
    let foundOutputs := found.outputs.map Port.shape
    if Shape.listAgrees inputs foundInputs && Shape.listAgrees outputs foundOutputs then return
    else
      throw (.typeMismatch (parameterText owner q.name) (signatureText inputs outputs)
        s!"`{i.describe}` with {signatureText foundInputs foundOutputs}")
  | _, _ => return

/-- Binds generic values and then checks the functions among them, whose signatures may mention any
parameter. -/
def bind (p : Program) (u : Unfolding) (g : Generics) (owner : String) (interfaces : List Shape)
    (parameters : List Argument) : Expand Bindings := do
  let b ← g.bindValues owner interfaces parameters
  g.parameters.forM (checkSignature p u owner b)
  return b

end Generics

/-! ### Opening definitions -/

/-- The shape of a definition for generic values. -/
def InterfaceDefinition.expand (p : Program) (u : Unfolding) (active : List String)
    (d : InterfaceDefinition) (interfaces : List Shape) (parameters : List Argument) :
    Expand Shape := do
  let b ← d.generics.bind p u d.name interfaces parameters
  match d.body with
  | .alias e => e.expandIn p u b (d.name :: active)
  | .record members =>
    let shapes ← InterfaceExpr.expandListIn p u b (d.name :: active) (members.map Prod.snd)
    return .record ((members.map Prod.fst).zip shapes)

/-- The errors of a primitive's values as errors of elaboration. -/
def PrimitiveError.toBuildError : PrimitiveError → BuildError
  | .arity op interfaces parameters =>
    if op.interfaceCount ≠ interfaces then
      .genericArity op.name "interface" op.interfaceCount interfaces
    else .genericArity op.name "parameter" op.parameterCount parameters
  | .expectedInteger op index =>
    .typeMismatch s!"parameter {index} of `{op.name}`" "integer" "function"
  | .invalidSize _ _ value =>
    if value.toInt < 0 then .negativeSize value.toInt else .sizeTooLarge value.toInt

/-- The primitive of an invocation. -/
def Primitive.ofCall (op : PrimitiveOp) (i : Invocation) : Except BuildError Primitive :=
  (Primitive.ofInvocation op i).mapError PrimitiveError.toBuildError

/-- The declared ports of a function under bindings. -/
def FunctionDefinition.signature (p : Program) (u : Unfolding) (d : FunctionDefinition)
    (b : Bindings) : Expand Signature := do
  let inputs ← FunctionPort.expandList p u b d.inputs
  let outputs ← FunctionPort.expandList p u b d.outputs
  return ⟨inputs, outputs⟩

/-- The ports of the module that an invocation stands for. -/
def Invocation.ports (p : Program) (u : Unfolding) (i : Invocation) : Expand Signature := do
  match ← p.callee i.function with
  | .primitive op => return (← Primitive.ofCall op i).signature
  | .function d =>
    let b ← d.generics.bind p u d.name i.interfaces i.parameters
    d.signature p u b

/-- Opens definitions up to a depth. -/
def Program.unfolding (p : Program) : Nat → Unfolding
  | 0 => ⟨fun _ _ _ _ => Expand.tooDeep, fun _ => Expand.tooDeep⟩
  | depth + 1 =>
    ⟨fun active d interfaces parameters =>
        InterfaceDefinition.expand p (p.unfolding depth) active d interfaces parameters,
      fun i => Invocation.ports p (p.unfolding depth) i⟩

end NetlistCompiler
