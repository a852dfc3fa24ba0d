import NetlistCompiler.Shape

/-!
# Port trees

A port tree is a shape whose wires are numbered from left to right. Member, item and slice access
walk down the tree, and two trees of agreeing shapes pair their wires by access path.
-/

namespace NetlistCompiler

/-- A shape with numbered wires. A vector keeps the shape of its items, of which it may have none. -/
inductive PortTree where
  | wire (leaf : Nat)
  | record (fields : List (String × PortTree))
  | vector (element : Shape) (items : List PortTree)
  deriving Repr, Inhabited

namespace PortTree

mutual

/-- The tree of a shape whose first wire has number `first`. -/
def number : Shape → Nat → PortTree
  | .wire, first => .wire first
  | .record fields, first => .record (numberFields fields first)
  | .vector element size, first =>
    .vector element ((List.range size).map fun i => number element (first + i * element.wireCount))

def numberFields : List (String × Shape) → Nat → List (String × PortTree)
  | [], _ => []
  | (name, s) :: rest, first =>
    (name, number s first) :: numberFields rest (first + s.wireCount)

end

/-- The tree of a shape, numbered from zero. -/
def ofShape (s : Shape) : PortTree :=
  number s 0

mutual

/-- The shape of a tree. -/
def shape : PortTree → Shape
  | .wire _ => .wire
  | .record fields => .record (fieldShapes fields)
  | .vector element items => .vector element items.length

def fieldShapes : List (String × PortTree) → List (String × Shape)
  | [] => []
  | (name, t) :: rest => (name, t.shape) :: fieldShapes rest

end

mutual

/-- The numbers of the wires, from left to right. -/
def leaves : PortTree → List Nat
  | .wire leaf => [leaf]
  | .record fields => fieldLeaves fields
  | .vector _ items => itemLeaves items

def fieldLeaves : List (String × PortTree) → List Nat
  | [] => []
  | (_, t) :: rest => t.leaves ++ fieldLeaves rest

def itemLeaves : List PortTree → List Nat
  | [] => []
  | t :: rest => t.leaves ++ itemLeaves rest

end

/-- The field of a record. -/
def member? (t : PortTree) (name : String) : Option PortTree :=
  match t with
  | .record fields => fields.lookup name
  | _ => none

/-- The number of items of a vector. -/
def length? : PortTree → Option Nat
  | .vector _ items => some items.length
  | _ => none

/-- One item of a vector. -/
def item? (t : PortTree) (index : Nat) : Option PortTree :=
  match t with
  | .vector _ items => items[index]?
  | _ => none

/-- The items of a vector from `first` to `last`, both included. -/
def slice? (t : PortTree) (first last : Nat) : Option PortTree :=
  match t with
  | .vector element items =>
    if first ≤ last ∧ last < items.length then
      some (.vector element ((items.drop first).take (last + 1 - first)))
    else none
  | _ => none

mutual

/-- The pairs of wires with the same access path, in the order of the first tree, if the shapes
agree. -/
def pairLeaves? : PortTree → PortTree → Option (List (Nat × Nat))
  | .wire a, .wire b => some [(a, b)]
  | .record fs, .record gs => if fs.length = gs.length then pairFields? fs gs else none
  | .vector e ts, .vector f us =>
    if e.agrees f ∧ ts.length = us.length then pairItems? ts us else none
  | _, _ => none

def pairFields? : List (String × PortTree) → List (String × PortTree) → Option (List (Nat × Nat))
  | [], _ => some []
  | (name, t) :: rest, gs =>
    match gs.lookup name with
    | none => none
    | some u =>
      match t.pairLeaves? u, pairFields? rest gs with
      | some ps, some qs => some (ps ++ qs)
      | _, _ => none

def pairItems? : List PortTree → List PortTree → Option (List (Nat × Nat))
  | t :: ts, u :: us =>
    match t.pairLeaves? u, pairItems? ts us with
    | some ps, some qs => some (ps ++ qs)
    | _, _ => none
  | _, _ => some []

end

end PortTree

end NetlistCompiler
