import NetlistCompiler.Json
import NetlistCompiler.PortTree

/-!
# Shapes and port trees as JSON

The writer of names is a parameter: names stand as strings, or as places in a symbol table.
-/

namespace NetlistCompiler

mutual

def Shape.toJson (name : String → Json) : Shape → Json
  | .wire => .string "Wire"
  | .record fields => .tagged "Record" (.array (Shape.fieldsToJson name fields))
  | .vector element size =>
    .tagged "Vector" (.object [("element", element.toJson name), ("size", .ofNat size)])

def Shape.fieldsToJson (name : String → Json) : List (String × Shape) → List Json
  | [] => []
  | (n, s) :: rest => .array [name n, s.toJson name] :: Shape.fieldsToJson name rest

end

mutual

def PortTree.toJson (name : String → Json) : PortTree → Json
  | .wire leaf => .tagged "Wire" (.ofNat leaf)
  | .record fields => .tagged "Record" (.array (PortTree.fieldsToJson name fields))
  | .vector element items =>
    .tagged "Vector" (.object [("element", element.toJson name),
      ("items", .array (PortTree.itemsToJson name items))])

def PortTree.fieldsToJson (name : String → Json) : List (String × PortTree) → List Json
  | [] => []
  | (n, t) :: rest => .array [name n, t.toJson name] :: PortTree.fieldsToJson name rest

def PortTree.itemsToJson (name : String → Json) : List PortTree → List Json
  | [] => []
  | t :: rest => t.toJson name :: PortTree.itemsToJson name rest

end

end NetlistCompiler
