/-!
# Operators of static expressions
-/

namespace NetlistCompiler

/-- A binary operator on compile-time integers. -/
inductive BinaryOp where
  | mul
  | div
  | add
  | sub
  | lt
  | gt
  | le
  | ge
  | eq
  | ne
  | and
  | or
  deriving Repr, DecidableEq, Inhabited

namespace BinaryOp

/-- Every operator. -/
def all : List BinaryOp :=
  [.mul, .div, .add, .sub, .lt, .gt, .le, .ge, .eq, .ne, .and, .or]

/-- The word for an operator in documents. -/
def word : BinaryOp → String
  | mul => "mul"
  | div => "div"
  | add => "add"
  | sub => "sub"
  | lt => "lt"
  | gt => "gt"
  | le => "le"
  | ge => "ge"
  | eq => "eq"
  | ne => "ne"
  | and => "and"
  | or => "or"

/-- The operator of a word. -/
def ofWord? (w : String) : Option BinaryOp :=
  all.find? fun op => op.word == w

/-- The number of a truth value. -/
def truth (b : Bool) : Int64 :=
  if b then 1 else 0

/-- The value of an operator, `none` for a division by zero. Sums, differences, products and
quotients wrap around at 64 bits, quotients are rounded toward zero, comparisons give 0 or 1 and
every number other than 0 counts as true. -/
def eval? (op : BinaryOp) (l r : Int64) : Option Int64 :=
  match op with
  | mul => some (l * r)
  | div => if r = 0 then none else some (l / r)
  | add => some (l + r)
  | sub => some (l - r)
  | lt => some (truth (l < r))
  | gt => some (truth (r < l))
  | le => some (truth (l ≤ r))
  | ge => some (truth (r ≤ l))
  | eq => some (truth (l = r))
  | ne => some (truth (l ≠ r))
  | and => some (truth (l ≠ 0 ∧ r ≠ 0))
  | or => some (truth (l ≠ 0 ∨ r ≠ 0))

end BinaryOp

end NetlistCompiler
