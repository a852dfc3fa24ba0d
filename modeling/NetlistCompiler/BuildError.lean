/-!
# Errors of elaboration
-/

namespace NetlistCompiler

/-- Why a module cannot be built. The compiler numbers the wires of a port with 32 bits and stops
at a port that has more. -/
inductive BuildError where
  | unknownFunction (name : String)
  | unknownInterface (name : String)
  | unboundGeneric (name : String)
  | unresolvedNode (module name : String)
  | unresolvedPort (module name : String)
  | connectionShape (module driver driven : String)
  | typeMismatch (context expected found : String)
  | genericArity (name kind : String) (expected found : Nat)
  | multipleDrivers (module wire : String)
  | indexOutOfRange (module : String) (index : Int64) (length : Nat)
  | reversedSlice (module : String) (first last : Int64)
  | negativeSize (value : Int)
  | sizeTooLarge (value : Int)
  | divisionByZero
  | recursiveInstantiation (name : String)
  | portTooWide
  | internal (cause : String)
  deriving Repr, DecidableEq

/-- The text for a broken invariant of the compiler itself. -/
def internalErrorText (cause : String) : String :=
  "internal compiler error: " ++ cause

/-- The text for a name that no node has, or for a member that is no port and no field. -/
def unresolvedText (module name : String) : String :=
  s!"no port or node `{name}` in `{module}`"

/-- The text of an error. -/
def BuildError.message : BuildError → String
  | unknownFunction name => s!"unknown function `{name}`"
  | unknownInterface name => s!"unknown interface `{name}`"
  | unboundGeneric name => s!"generic `{name}` has no bound value"
  | unresolvedNode module name => unresolvedText module name
  | unresolvedPort module name => unresolvedText module name
  | connectionShape module driver driven => s!"cannot connect {driver} to {driven} in `{module}`"
  | typeMismatch context expected found => s!"{context}: expected {expected}, found {found}"
  | genericArity name kind expected found =>
    s!"`{name}` expects {expected} {kind} argument(s), found {found}"
  | multipleDrivers module wire => s!"wire {wire} in `{module}` has more than one driver"
  | indexOutOfRange module index length =>
    s!"index {index.toInt} is out of range for a vector of {length} in `{module}`"
  | reversedSlice module first last =>
    s!"slice [{first.toInt}:{last.toInt}] is reversed in `{module}`"
  | negativeSize value => s!"vector size must be non-negative, found {value}"
  | sizeTooLarge value => s!"size {value} does not fit in 32 bits"
  | divisionByZero => "division by zero in static expression"
  | recursiveInstantiation name => s!"recursive instantiation of `{name}`"
  | portTooWide => "attempt to add with overflow"
  | internal cause => internalErrorText cause

end NetlistCompiler
