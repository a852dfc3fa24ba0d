import NetlistCompiler.DelayModel

/-!
# Configurations

The options of the compiler and the delay model of a project. A configuration is valid if it asks
for a clock period only together with retiming, has no negative number, and gives every width of a
function at most one slice.
-/

namespace NetlistCompiler

/-- The configuration of a project. -/
structure Configuration where
  flatten : Bool
  literalSimplification : Bool
  retime : Bool
  retimeTarget : Option Int
  delay : DelayModel
  deriving Repr, DecidableEq

/-- What is wrong with a configuration. -/
inductive ConfigurationFault where
  | targetWithoutRetiming
  | negativeTarget (target : Int)
  | negativeDefault
  | negativeFunctionDefault (function : String)
  | emptySlice (function : String) (first : Nat)
  | negativeDelay (function : String) (first : Nat)
  | overlap (function : String) (earlier later : Nat)
  deriving Repr, DecidableEq

namespace ConfigurationFault

/-- What a fault says about the configuration. -/
def reason : ConfigurationFault → String
  | targetWithoutRetiming => "compiler.retime_target requires compiler.retime = true"
  | negativeTarget target => s!"compiler.retime_target must be non-negative, found {target}"
  | negativeDefault => "delay.default must be non-negative"
  | negativeFunctionDefault function => s!"delay.functions.{function}.default must be non-negative"
  | emptySlice function first =>
    s!"delay.functions.{function}: width slice starting at {first} is empty"
  | negativeDelay function first =>
    s!"delay.functions.{function}: width slice starting at {first} has a negative delay"
  | overlap function earlier later =>
    s!"delay.functions.{function}: width slices starting at {earlier} and {later} overlap"

/-- The text of a fault. -/
def message (f : ConfigurationFault) : String :=
  "validation error: " ++ f.reason

end ConfigurationFault

/-- A fault if a condition holds. -/
def faultIf (condition : Bool) (fault : ConfigurationFault) : List ConfigurationFault :=
  if condition then [fault] else []

/-- The faults of a slice after earlier ones of the same function. -/
def WidthSlice.faults (function : String) (earlier : List WidthSlice) (s : WidthSlice) :
    List ConfigurationFault :=
  faultIf s.isEmpty (.emptySlice function s.first) ++
    faultIf (s.delay < 0) (.negativeDelay function s.first) ++
    ((earlier.find? fun t => t.overlaps s).map fun t =>
      ConfigurationFault.overlap function t.first s.first).toList

/-- The faults of slices after earlier ones of the same function. -/
def WidthSlice.allFaults (function : String) (earlier : List WidthSlice) :
    List WidthSlice → List ConfigurationFault
  | [] => []
  | s :: rest => s.faults function earlier ++ allFaults function (earlier ++ [s]) rest

/-- The faults of the delays of a function. -/
def FunctionDelay.faults (function : String) (d : FunctionDelay) : List ConfigurationFault :=
  faultIf (d.default.any fun n => n < 0) (.negativeFunctionDefault function) ++
    WidthSlice.allFaults function [] d.widths

/-- The faults of a delay model. -/
def DelayModel.faults (m : DelayModel) : List ConfigurationFault :=
  faultIf (m.default < 0) .negativeDefault ++
    m.functions.flatMap fun (function, d) => d.faults function

namespace Configuration

/-- The configuration of a project that says nothing. -/
def standard : Configuration :=
  ⟨false, false, false, none, .unit⟩

/-- Everything that is wrong with the options of the compiler. -/
def optionFaults (c : Configuration) : List ConfigurationFault :=
  match c.retimeTarget with
  | none => []
  | some target =>
    faultIf (!c.retime) .targetWithoutRetiming ++ faultIf (target < 0) (.negativeTarget target)

/-- Everything that is wrong with a configuration, in the order in which it is looked for. -/
def faults (c : Configuration) : List ConfigurationFault :=
  c.optionFaults ++ c.delay.faults

end Configuration

end NetlistCompiler
