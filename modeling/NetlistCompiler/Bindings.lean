import NetlistCompiler.BuildError
import NetlistCompiler.Invocation
import NetlistCompiler.Program

/-!
# Bindings and static evaluation

Bindings hold the concrete values of the generic parameters of one definition. Static expressions
are evaluated under them.
-/

namespace NetlistCompiler

/-- The values of generic parameters; of two values for a name, the first counts. -/
structure Bindings where
  interfaces : List (String × Shape)
  integers : List (String × Int64)
  functions : List (String × Invocation)
  deriving Repr

namespace Bindings

def empty : Bindings :=
  ⟨[], [], []⟩

def bindInterface (b : Bindings) (name : String) (s : Shape) : Bindings :=
  { b with interfaces := (name, s) :: b.interfaces }

def bindInteger (b : Bindings) (name : String) (value : Int64) : Bindings :=
  { b with integers := (name, value) :: b.integers }

def bindFunction (b : Bindings) (name : String) (i : Invocation) : Bindings :=
  { b with functions := (name, i) :: b.functions }

end Bindings

/-- The value of a static expression. Both operands are evaluated, the left one first. -/
def StaticExpr.eval (b : Bindings) : StaticExpr → Except BuildError Int64
  | .int value => .ok value
  | .bool value => .ok (BinaryOp.truth value)
  | .parameter name =>
    match b.integers.lookup name with
    | some value => .ok value
    | none => .error (.unboundGeneric name)
  | .binary op lhs rhs => do
    let l ← lhs.eval b
    let r ← rhs.eval b
    match op.eval? l r with
    | some value => .ok value
    | none => .error .divisionByZero

/-- A value as the size of a vector. -/
def toSize (value : Int64) : Except BuildError Nat :=
  if value.toInt < 0 then .error (.negativeSize value.toInt)
  else if value.toInt ≤ Shape.maxWidth then .ok value.toInt.toNat
  else .error (.sizeTooLarge value.toInt)

end NetlistCompiler
