import NetlistCompiler.Configuration
import NetlistCompiler.Toml.Reader

/-!
# Reading configurations

A configuration is written as a TOML document. Fields may be left out, apart from the first width
and the delay of a slice, and unknown fields are ignored.
-/

namespace NetlistCompiler

/-- Why a text is no configuration. -/
inductive ConfigurationError where
  | malformed
  | invalid (fault : ConfigurationFault)
  deriving Repr, DecidableEq

/-- The value of a field if it is present. -/
def Toml.field? (fields : List (String × Toml)) (name : String) (read : Toml → Option α) :
    Option (Option α) :=
  match fields.lookup name with
  | none => some none
  | some v => (read v).map some

/-- The value of a natural number of 32 bits. -/
def Toml.natural? (v : Toml) : Option Nat := do
  let n ← v.integer?
  if 0 ≤ n ∧ n ≤ maxNat32 then return n.toNat else none

def WidthSlice.ofToml? (v : Toml) : Option WidthSlice := do
  let fields ← v.fields? ["index", "until", "delay"]
  let first ← (← Toml.field? fields "index" Toml.natural?)
  let stop ← Toml.field? fields "until" Toml.natural?
  let delay ← (← Toml.field? fields "delay" Toml.integer?)
  return ⟨first, stop, delay⟩

def FunctionDelay.ofToml? (v : Toml) : Option FunctionDelay := do
  let fields ← v.fields? ["default", "widths"]
  let default ← Toml.field? fields "default" Toml.integer?
  let widths ← Toml.field? fields "widths" fun v => do (← v.items?).mapM WidthSlice.ofToml?
  return ⟨default, widths.getD []⟩

/-- The delays of all functions of a table. -/
def DelayModel.functionsOfToml? (v : Toml) : Option (List (String × FunctionDelay)) := do
  (← v.members?).mapM fun (name, v) => (FunctionDelay.ofToml? v).map fun d => (name, d)

def DelayModel.ofToml? (v : Toml) : Option DelayModel := do
  let fields ← v.fields? ["default", "functions"]
  let default ← Toml.field? fields "default" Toml.integer?
  let functions ← Toml.field? fields "functions" DelayModel.functionsOfToml?
  return .ofFunctions (default.getD DelayModel.unit.default) (functions.getD [])

namespace Configuration

/-- The standard configuration with the options of a table. -/
def ofOptions? (v : Toml) : Option Configuration := do
  let fields ← v.fields? ["flatten", "literal_simplification", "retime", "retime_target"]
  let flatten ← Toml.field? fields "flatten" Toml.boolean?
  let literalSimplification ← Toml.field? fields "literal_simplification" Toml.boolean?
  let retime ← Toml.field? fields "retime" Toml.boolean?
  let retimeTarget ← Toml.field? fields "retime_target" Toml.integer?
  return ⟨flatten.getD false, literalSimplification.getD false, retime.getD false, retimeTarget,
    .unit⟩

def ofToml? (v : Toml) : Option Configuration := do
  let fields ← v.fields? ["compiler", "delay"]
  let options ← Toml.field? fields "compiler" ofOptions?
  let delay ← Toml.field? fields "delay" DelayModel.ofToml?
  return { options.getD standard with delay := delay.getD .unit }

/-- The valid configuration that a text holds. -/
def parse (text : String) : Except ConfigurationError Configuration :=
  match (Toml.parse? text).bind ofToml? with
  | none => .error .malformed
  | some c =>
    match c.faults with
    | [] => .ok c
    | fault :: _ => .error (.invalid fault)

end Configuration

end NetlistCompiler
