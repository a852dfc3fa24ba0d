import NetlistCompiler.Invocation

/-!
# Module names

The name of the module built for an invocation is an identifier of letters, digits and underscores
from which the invocation can be read back, up to the order of record fields. An underscore of a
source name is written `_u` and any other character outside letters and digits as `_x`, two
hexadecimal digits and `_` for each of its bytes, so every other `_` starts a marker: `_I` the
interface values, `_P` the parameters, `_c` the shape of a field and `_E` the end of a function.
-/

namespace NetlistCompiler

namespace ModuleName

/-- The characters that stand for one byte of a source name. -/
def escapeByte (b : UInt8) : List Char :=
  let c := Char.ofNat b.toNat
  if c == '_' then ['_', 'u']
  else if c.isAlphanum then [c]
  else ['_', 'x', (b.toNat / 16).digitChar, (b.toNat % 16).digitChar, '_']

/-- A source name inside a module name. -/
def escape (name : String) : List Char :=
  name.toUTF8.data.toList.flatMap escapeByte

/-- A number, closed by `e`. -/
def number (n : Nat) : List Char :=
  (toString n).toList ++ ['e']

mutual

/-- A shape, with the fields of a record in the order of their names. -/
def shape : Shape → List Char
  | .wire => ['w']
  | .vector element size => 'v' :: number size ++ shape element
  | .record fields =>
    'r' :: number fields.length ++
      ((fieldShapes fields).mergeSort fun a b => a.1 ≤ b.1).flatMap fun (name, s) =>
        escape name ++ ['_', 'c'] ++ s

def fieldShapes : List (String × Shape) → List (String × List Char)
  | [] => []
  | (name, s) :: rest => (name, shape s) :: fieldShapes rest

end

/-- A signed integer. -/
def integer (n : Int) : List Char :=
  (if n < 0 then 'n' else 'i') :: number n.natAbs

mutual

/-- An invocation. -/
def invocation : Invocation → List Char
  | ⟨function, interfaces, parameters⟩ =>
    escape function ++
      (if interfaces.isEmpty then [] else '_' :: 'I' :: interfaces.flatMap shape) ++
      (if parameters.isEmpty then [] else '_' :: 'P' :: arguments parameters)

def argument : Argument → List Char
  | .integer value => integer value.toInt
  | .function i => 'f' :: invocation i ++ ['_', 'E']

def arguments : List Argument → List Char
  | [] => []
  | a :: rest => argument a ++ arguments rest

end

end ModuleName

/-- The name of the module built for an invocation. -/
def Invocation.moduleName (i : Invocation) : String :=
  String.ofList (ModuleName.invocation i)

end NetlistCompiler
