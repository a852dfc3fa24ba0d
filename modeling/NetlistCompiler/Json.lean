/-!
# JSON values

Documents, answers and command output are JSON. Object members keep their order and may repeat a
name, so that a reader of records can tell a repeated field from a single one.
-/

namespace NetlistCompiler

/-- A JSON value. Integers are exact; any other number keeps the text it was written with. What is
well formed but cannot be held, as a string with half a surrogate pair, is garbled. -/
inductive Json where
  | null
  | bool (value : Bool)
  | int (value : Int)
  | real (literal : String)
  | string (value : String)
  | array (items : List Json)
  | object (members : List (String × Json))
  | garbled
  deriving Repr, Inhabited

namespace Json

/-- The number of a natural number. -/
def ofNat (n : Nat) : Json :=
  .int n

/-- `null` for an absent value. -/
def ofOption (write : α → Json) : Option α → Json
  | none => .null
  | some a => write a

/-- The array of the written elements. -/
def ofList (write : α → Json) (as : List α) : Json :=
  .array (as.map write)

/-- An object with one member, as a tagged alternative is written. -/
def tagged (tag : String) (body : Json) : Json :=
  .object [(tag, body)]

/-- The first member of an object with the given name. -/
def member? (j : Json) (name : String) : Option Json :=
  match j with
  | .object members => members.lookup name
  | _ => none

mutual

/-- Every object with its members in the order of their names. -/
def sortMembers : Json → Json
  | .array items => .array (sortItems items)
  | .object members => .object ((sortValues members).mergeSort fun a b => a.1 ≤ b.1)
  | j => j

def sortItems : List Json → List Json
  | [] => []
  | j :: rest => j.sortMembers :: sortItems rest

def sortValues : List (String × Json) → List (String × Json)
  | [] => []
  | (name, j) :: rest => (name, j.sortMembers) :: sortValues rest

end

end Json

end NetlistCompiler
