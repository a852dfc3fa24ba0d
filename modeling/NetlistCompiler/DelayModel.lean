import NetlistCompiler.Netlist

/-!
# Delay models

A delay model says how long a node takes. For a primitive it depends on the total width of the
outputs: a slice of widths has a delay of its own, then comes the default of the primitive, then
that of the model.
-/

namespace NetlistCompiler

/-- A delay for the widths from `first` up to but not including `stop`, or for all widths from
`first` on. -/
structure WidthSlice where
  first : Nat
  stop : Option Nat
  delay : Int
  deriving Repr, DecidableEq, Inhabited

namespace WidthSlice

/-- Whether a slice covers a width. -/
def contains (s : WidthSlice) (width : Nat) : Bool :=
  decide (s.first ≤ width) && s.stop.all fun u => width < u

/-- Whether a slice ends before or at a width. -/
def endsBy (s : WidthSlice) (width : Nat) : Bool :=
  s.stop.any fun u => u ≤ width

/-- Whether a slice covers no width. -/
def isEmpty (s : WidthSlice) : Bool :=
  s.endsBy s.first

/-- Whether neither of two slices ends before the other begins. -/
def overlaps (s t : WidthSlice) : Bool :=
  !s.endsBy t.first && !t.endsBy s.first

end WidthSlice

/-- The delays of one primitive. -/
structure FunctionDelay where
  default : Option Int
  widths : List WidthSlice
  deriving Repr, DecidableEq, Inhabited

/-- The delays of all nodes, with the primitives in the order of their names. -/
structure DelayModel where
  default : Int
  functions : List (String × FunctionDelay)
  deriving Repr, DecidableEq, Inhabited

namespace DelayModel

/-- Every node takes one unit. -/
def unit : DelayModel :=
  ⟨1, []⟩

/-- A model with the given functions, put in order. -/
def ofFunctions (default : Int) (functions : List (String × FunctionDelay)) : DelayModel :=
  ⟨default, functions.mergeSort fun a b => a.1 ≤ b.1⟩

/-- The delay of a function at a width. -/
def delayFor (m : DelayModel) (function : String) (width : Nat) : Int :=
  match m.functions.lookup function with
  | none => m.default
  | some d =>
    match d.widths.find? fun s => s.contains width with
    | some s => s.delay
    | none => d.default.getD m.default

/-- The delay of a node. The ports of the module and joints take no time. -/
def nodeDelay (m : DelayModel) (n : Node) : Int :=
  match n.kind with
  | .input | .output | .pass => 0
  | .instance _ _ => m.default
  | .primitive p => m.delayFor p.op.name n.outputWidth

/-- The first function of the model that is not in the catalog. -/
def unknownFunction? (m : DelayModel) : Option String :=
  (m.functions.map Prod.fst).find? fun name => (PrimitiveOp.ofName? name).isNone

end DelayModel

end NetlistCompiler
