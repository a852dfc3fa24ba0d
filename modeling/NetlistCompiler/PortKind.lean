/-!
# Port kinds
-/

namespace NetlistCompiler

/-- A signal port carries data wires only; a stream port also has a valid and a ready wire. -/
inductive PortKind where
  | signal
  | stream
  deriving Repr, DecidableEq, Inhabited

end NetlistCompiler
