import NetlistCompiler.Primitive
import NetlistCompiler.Shape.Json

/-!
# Primitives as JSON
-/

namespace NetlistCompiler

/-- The word for a primitive in written netlists. -/
def PrimitiveOp.word : PrimitiveOp → String
  | lessThan => "LessThan"
  | greaterThan => "GreaterThan"
  | lessThanEquals => "LessThanEquals"
  | greaterThanEquals => "GreaterThanEquals"
  | equals => "Equals"
  | notEquals => "NotEquals"
  | and => "And"
  | or => "Or"
  | not => "Not"
  | bitwiseAnd => "BitwiseAnd"
  | bitwiseOr => "BitwiseOr"
  | bitwiseXor => "BitwiseXor"
  | bitwiseNot => "BitwiseNot"
  | add => "Add"
  | subtract => "Subtract"
  | multiply => "Multiply"
  | leftShift => "LeftShift"
  | rightShift => "RightShift"
  | register => "Register"
  | literal => "Literal"
  | mux => "Mux"
  | demux => "Demux"
  | priority => "Priority"

def Primitive.toJson (name : String → Json) : Primitive → Json
  | binary op size => .tagged "Binary" (.object [("op", .string op.word), ("size", .ofNat size)])
  | logical op => .tagged "Logical" (.string op.word)
  | not => .string "Not"
  | bitwiseNot size => .tagged "BitwiseNot" (.object [("size", .ofNat size)])
  | register shape => .tagged "Register" (shape.toJson name)
  | literal size value =>
    .tagged "Literal" (.object [("size", .ofNat size), ("value", .int value.toInt)])
  | selection op element count =>
    .tagged "Selection" (.object [("op", .string op.word), ("element", element.toJson name),
      ("count", .ofNat count)])

end NetlistCompiler
