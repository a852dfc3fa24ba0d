import NetlistCompiler.Invocation
import NetlistCompiler.Port

/-!
# Primitive functions

The catalog of functions that are never built from source. An invocation of a name in the catalog
becomes a primitive carrying its generic values, and its ports follow from it.
-/

namespace NetlistCompiler

/-- A function of the catalog. -/
inductive PrimitiveOp where
  | lessThan
  | greaterThan
  | lessThanEquals
  | greaterThanEquals
  | equals
  | notEquals
  | and
  | or
  | not
  | bitwiseAnd
  | bitwiseOr
  | bitwiseXor
  | bitwiseNot
  | add
  | subtract
  | multiply
  | leftShift
  | rightShift
  | register
  | literal
  | mux
  | demux
  | priority
  deriving Repr, DecidableEq, Inhabited

namespace PrimitiveOp

/-- The whole catalog. -/
def all : List PrimitiveOp :=
  [.lessThan, .greaterThan, .lessThanEquals, .greaterThanEquals, .equals, .notEquals, .and, .or,
    .not, .bitwiseAnd, .bitwiseOr, .bitwiseXor, .bitwiseNot, .add, .subtract, .multiply,
    .leftShift, .rightShift, .register, .literal, .mux, .demux, .priority]

/-- The name under which programs invoke a primitive. -/
def name : PrimitiveOp → String
  | lessThan => "less_than"
  | greaterThan => "greater_than"
  | lessThanEquals => "less_than_equals"
  | greaterThanEquals => "greater_than_equals"
  | equals => "equals"
  | notEquals => "not_equals"
  | and => "and"
  | or => "or"
  | not => "not"
  | bitwiseAnd => "bitwise_and"
  | bitwiseOr => "bitwise_or"
  | bitwiseXor => "bitwise_xor"
  | bitwiseNot => "bitwise_not"
  | add => "add"
  | subtract => "subtract"
  | multiply => "multiply"
  | leftShift => "left_shift"
  | rightShift => "right_shift"
  | register => "register"
  | literal => "literal"
  | mux => "mux"
  | demux => "demux"
  | priority => "priority"

/-- The primitive of a name. -/
def ofName? (name : String) : Option PrimitiveOp :=
  all.find? fun op => op.name == name

/-- Whether the result is a single truth value although the operands are buses. -/
def isComparison : PrimitiveOp → Bool
  | lessThan | greaterThan | lessThanEquals | greaterThanEquals | equals | notEquals => true
  | _ => false

/-- The number of interface values that a primitive takes. -/
def interfaceCount : PrimitiveOp → Nat
  | register | mux | demux | priority => 1
  | _ => 0

/-- The number of parameters that a primitive takes. -/
def parameterCount : PrimitiveOp → Nat
  | and | or | not | register => 0
  | literal => 2
  | _ => 1

end PrimitiveOp

/-- A primitive with its generic values. -/
inductive Primitive where
  | binary (op : PrimitiveOp) (size : Nat)
  | logical (op : PrimitiveOp)
  | not
  | bitwiseNot (size : Nat)
  | register (shape : Shape)
  | literal (size : Nat) (value : Int64)
  | selection (op : PrimitiveOp) (element : Shape) (count : Nat)
  deriving Repr, Inhabited

/-- Why generic values do not suit a primitive. -/
inductive PrimitiveError where
  | arity (function : PrimitiveOp) (interfaces parameters : Nat)
  | expectedInteger (function : PrimitiveOp) (index : Nat)
  | invalidSize (function : PrimitiveOp) (index : Nat) (value : Int64)
  deriving Repr

/-- The text of an error. -/
def PrimitiveError.message : PrimitiveError → String
  | arity f interfaces parameters =>
    s!"`{f.name}` expects {f.interfaceCount} interface and {f.parameterCount} parameter argument(s), found {interfaces} and {parameters}"
  | expectedInteger f index => s!"parameter {index} of `{f.name}` must be an integer"
  | invalidSize f index value =>
    s!"parameter {index} of `{f.name}` must be a non-negative 32-bit size, found {value.toInt}"

/-- The number of selector wires needed to choose among `count` items. -/
def selectorWidth (count : Nat) : Nat :=
  if count ≤ 1 then 1 else Nat.log2 (count - 1) + 1

namespace Primitive

/-- The integer at a place of the parameters. -/
def integerAt (op : PrimitiveOp) (parameters : List Argument) (index : Nat) :
    Except PrimitiveError Int64 :=
  match parameters[index]? with
  | some (.integer value) => .ok value
  | _ => .error (.expectedInteger op index)

/-- The size at a place of the parameters. -/
def sizeAt (op : PrimitiveOp) (parameters : List Argument) (index : Nat) :
    Except PrimitiveError Nat := do
  let value ← integerAt op parameters index
  if 0 ≤ value.toInt ∧ value.toInt ≤ Shape.maxWidth then return value.toInt.toNat
  else throw (.invalidSize op index value)

/-- The primitive of an invocation of a name in the catalog. -/
def ofInvocation (op : PrimitiveOp) (i : Invocation) : Except PrimitiveError Primitive := do
  if i.interfaces.length ≠ op.interfaceCount ∨ i.parameters.length ≠ op.parameterCount then
    throw (.arity op i.interfaces.length i.parameters.length)
  let element := i.interfaces.headD .wire
  match op with
  | .and | .or => return .logical op
  | .not => return .not
  | .bitwiseNot => return .bitwiseNot (← sizeAt op i.parameters 0)
  | .register => return .register element
  | .literal => return .literal (← sizeAt op i.parameters 0) (← integerAt op i.parameters 1)
  | .mux | .demux | .priority =>
    let count ← sizeAt op i.parameters 0
    if (Shape.vector element count).checkedWidth?.isNone then
      throw (.invalidSize op 0 (Int64.ofNat count))
    return .selection op element count
  | _ => return .binary op (← sizeAt op i.parameters 0)

/-- The entry of the catalog. -/
def op : Primitive → PrimitiveOp
  | binary op _ => op
  | logical op => op
  | not => .not
  | bitwiseNot _ => .bitwiseNot
  | register _ => .register
  | literal _ _ => .literal
  | selection op _ _ => op

/-- Whether a primitive holds its input back for one clock tick. -/
def isRegister : Primitive → Bool
  | register _ => true
  | _ => false

/-- The condition and the value of one alternative of a priority selection. -/
def priorityEntry (element : Shape) : Shape :=
  .record [("condition", .wire), ("value", element)]

/-- The ports of a primitive. -/
def signature : Primitive → Signature
  | binary op size =>
    ⟨[.signal "lhs" (.bus size), .signal "rhs" (.bus size)],
      [.signal "result" (if op.isComparison then .wire else .bus size)]⟩
  | logical _ => ⟨[.signal "lhs" .wire, .signal "rhs" .wire], [.signal "result" .wire]⟩
  | not => ⟨[.signal "input" .wire], [.signal "result" .wire]⟩
  | bitwiseNot size => ⟨[.signal "input" (.bus size)], [.signal "result" (.bus size)]⟩
  | register shape => ⟨[.signal "next" shape], [.signal "current" shape]⟩
  | literal size _ => ⟨[], [.signal "value" (.bus size)]⟩
  | selection op element count =>
    match op with
    | .mux =>
      ⟨[.signal "selector" (.bus (selectorWidth count)), .signal "inputs" (.vector element count)],
        [.signal "output" element]⟩
    | .demux =>
      ⟨[.signal "selector" (.bus (selectorWidth count)), .signal "input" element],
        [.signal "outputs" (.vector element count)]⟩
    | _ =>
      ⟨[.signal "conditions" (.vector (priorityEntry element) count), .signal "default" element],
        [.signal "output" element]⟩

/-- The names that the ports of a primitive bring into a symbol table, in order. -/
def portNames (p : Primitive) : List String :=
  match p with
  | selection .priority _ _ => ["selector", "condition", "value", "conditions", "default", "output"]
  | _ => p.signature.inputs.map Port.name ++ p.signature.outputs.map Port.name

end Primitive

end NetlistCompiler
