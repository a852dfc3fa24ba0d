import NetlistCompiler.PortKind
import NetlistCompiler.Shape

/-!
# Ports
-/

namespace NetlistCompiler

/-- A named port of a module or node. -/
structure Port where
  name : String
  shape : Shape
  kind : PortKind
  deriving Repr, Inhabited

/-- The ports of a function. -/
structure Signature where
  inputs : List Port
  outputs : List Port
  deriving Repr, Inhabited

namespace Port

/-- A port without handshake wires. -/
def signal (name : String) (shape : Shape) : Port :=
  ⟨name, shape, .signal⟩

/-- The port as name and shape, marked if it is a stream. -/
def describe (p : Port) : String :=
  p.name ++ ": " ++ p.shape.describe ++ (if p.kind = .stream then " stream" else "")

/-- Whether the wires of the port can be numbered with 32 bits. -/
def fits (p : Port) : Bool :=
  p.shape.wireCount ≤ Shape.maxWidth

end Port

/-- Whether the wires of every port can be numbered. -/
def Signature.fits (σ : Signature) : Bool :=
  σ.inputs.all Port.fits && σ.outputs.all Port.fits

end NetlistCompiler
