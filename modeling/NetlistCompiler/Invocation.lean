import NetlistCompiler.Shape

/-!
# Invocations

An invocation is a function together with concrete generic values. Modules are built once for each
invocation, where invocations are the same if their values agree place by place.
-/

namespace NetlistCompiler

mutual

/-- A function with concrete generic values. -/
structure Invocation where
  function : String
  interfaces : List Shape
  parameters : List Argument
  deriving Repr

/-- The value of a generic parameter that is no interface. -/
inductive Argument where
  | integer (value : Int64)
  | function (invocation : Invocation)
  deriving Repr

end

instance : Inhabited Invocation :=
  ⟨⟨"", [], []⟩⟩

namespace Invocation

/-- The invocation of a function without generic values. -/
def plain (function : String) : Invocation :=
  ⟨function, [], []⟩

/-- Whether an invocation passes generic values. -/
def isGeneric (i : Invocation) : Bool :=
  !i.interfaces.isEmpty || !i.parameters.isEmpty

mutual

/-- The invocation as a call with its values. -/
def describe : Invocation → String
  | ⟨function, interfaces, parameters⟩ =>
    function ++ "(" ++
      ", ".intercalate (interfaces.map Shape.describe ++ describeArguments parameters) ++ ")"

def describeArgument : Argument → String
  | .integer value => toString value.toInt
  | .function invocation => invocation.describe

def describeArguments : List Argument → List String
  | [] => []
  | a :: rest => describeArgument a :: describeArguments rest

end

mutual

/-- Whether two invocations are the same up to the order of record fields. -/
def agrees : Invocation → Invocation → Bool
  | ⟨f, is, ps⟩, ⟨g, js, qs⟩ => f == g && Shape.listAgrees is js && argumentsAgree ps qs

def argumentAgrees : Argument → Argument → Bool
  | .integer a, .integer b => a == b
  | .function i, .function j => i.agrees j
  | _, _ => false

def argumentsAgree : List Argument → List Argument → Bool
  | [], [] => true
  | a :: as, b :: bs => argumentAgrees a b && argumentsAgree as bs
  | _, _ => false

end

instance : BEq Invocation :=
  ⟨agrees⟩

end Invocation

end NetlistCompiler
