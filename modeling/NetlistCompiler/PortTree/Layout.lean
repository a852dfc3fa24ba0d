import NetlistCompiler.PortTree

/-!
# Layout of ports

The tree of a port is laid out from left to right, and a counter of 32 bits gives every wire the
next number. There is no tree if the counter runs over.
-/

namespace NetlistCompiler

namespace PortTree

/-- A step of the layout, with the number of the next wire as its state. -/
abbrev Layout := StateT Nat Option

/-- Takes the next number. -/
def nextLeaf : Layout Nat := do
  let leaf ← get
  guard (leaf < Shape.maxWidth)
  set (leaf + 1)
  return leaf

mutual

/-- Lays out a shape. -/
def layOut : Shape → Layout PortTree
  | .wire => return .wire (← nextLeaf)
  | .record fields => return .record (← layOutFields fields)
  | .vector element size =>
    return .vector element (← (List.range size).mapM fun _ => layOut element)

def layOutFields : List (String × Shape) → Layout (List (String × PortTree))
  | [] => return []
  | (name, s) :: rest => return (name, ← layOut s) :: (← layOutFields rest)

end

/-- The tree of a shape, laid out from number zero on. -/
def layOut? (s : Shape) : Option PortTree :=
  (layOut s).run' 0

end PortTree

end NetlistCompiler
