import NetlistCompiler.Expansion

/-!
# Names mentioned by expansion

Expansion brings names into play that stand nowhere in the program: the ports of primitives, which
are looked up when a primitive is the value of a function parameter. This module lists them in the
order of the look-ups, for expansions that succeed.
-/

namespace NetlistCompiler

/-- The names mentioned by opening definitions, as in an `Unfolding`. -/
structure ExpansionNames where
  interface : List String → InterfaceDefinition → List Shape → List Argument → List String
  ports : Invocation → List String

/-- The value of a successful expansion. -/
def Expand.value? (x : Expand α) : Option α :=
  match x.run with
  | some (.ok a) => some a
  | _ => none

section

variable (p : Program) (u : Unfolding) (ns : ExpansionNames) (b : Bindings)

mutual

/-- The names mentioned by the expansion of an interface expression. -/
def InterfaceExpr.names (active : List String) : InterfaceExpr → List String
  | .wire => []
  | .vector element _ => element.names active
  | .generic _ => []
  | .defined name interfaces parameters =>
    InterfaceExpr.listNames active interfaces ++ ArgumentExpr.listNames parameters ++
      match p.interface? name, (InterfaceExpr.expandListIn p u b active interfaces).value?,
        (ArgumentExpr.expandList p u b parameters).value? with
      | some d, some shapes, some arguments => ns.interface active d shapes arguments
      | _, _, _ => []

def InterfaceExpr.listNames (active : List String) : List InterfaceExpr → List String
  | [] => []
  | e :: rest => e.names active ++ InterfaceExpr.listNames active rest

def ArgumentExpr.names : ArgumentExpr → List String
  | .static _ => []
  | .instantiation value => value.names
  | .reference _ => []

def ArgumentExpr.listNames : List ArgumentExpr → List String
  | [] => []
  | a :: rest => a.names ++ ArgumentExpr.listNames rest

/-- The names mentioned by the expansion of an instantiation. -/
def Instantiation.names : Instantiation → List String
  | ⟨_, interfaces, parameters⟩ =>
    InterfaceExpr.listNames [] interfaces ++ ArgumentExpr.listNames parameters

end

/-- The names mentioned by the expansion of the ports of a function. -/
def FunctionDefinition.names (d : FunctionDefinition) : List String :=
  (d.inputs ++ d.outputs).flatMap fun port => port.interface.names p u ns b []

/-- The names mentioned by checking the functions among bound values. -/
def Generics.names (g : Generics) : List String :=
  g.parameters.flatMap fun q =>
    match q.type, b.functions.lookup q.name with
    | .function inputs outputs, some i =>
      InterfaceExpr.listNames p u ns b [] inputs ++ InterfaceExpr.listNames p u ns b [] outputs ++
        ns.ports i
    | _, _ => []

end

/-- The names mentioned by opening an interface definition. -/
def InterfaceDefinition.names (p : Program) (u : Unfolding) (ns : ExpansionNames)
    (active : List String) (d : InterfaceDefinition) (interfaces : List Shape)
    (parameters : List Argument) : List String :=
  match d.generics.bindValues d.name interfaces parameters with
  | .error _ => []
  | .ok b =>
    d.generics.names p u ns b ++
      match d.body with
      | .alias e => e.names p u ns b (d.name :: active)
      | .record members => InterfaceExpr.listNames p u ns b (d.name :: active) (members.map Prod.snd)

/-- The names mentioned by looking up the ports of an invocation. -/
def Invocation.names (p : Program) (u : Unfolding) (ns : ExpansionNames) (i : Invocation) :
    List String :=
  match p.callee i.function with
  | .error _ => []
  | .ok (.primitive op) =>
    match Primitive.ofCall op i with
    | .ok primitive => primitive.portNames
    | .error _ => []
  | .ok (.function d) =>
    match d.generics.bindValues d.name i.interfaces i.parameters with
    | .error _ => []
    | .ok b => d.generics.names p u ns b ++ d.names p u ns b

/-- The names mentioned by opening definitions up to a depth. -/
def Program.expansionNames (p : Program) : Nat → ExpansionNames
  | 0 => ⟨fun _ _ _ _ => [], fun _ => []⟩
  | depth + 1 =>
    ⟨fun active d interfaces parameters =>
        InterfaceDefinition.names p (p.unfolding depth) (p.expansionNames depth) active d interfaces
          parameters,
      fun i => Invocation.names p (p.unfolding depth) (p.expansionNames depth) i⟩

end NetlistCompiler
