import NetlistCompiler.Word

/-!
# Command lines

A command line names a command and its input. Options may stand anywhere; those that hold for all
commands may also stand before the command. An option is given at most once on either side of the
command, and takes its value from the same argument or from the next one, which must not look like
an option. After `--` everything is a plain argument.
-/

namespace NetlistCompiler.Command

/-- An option. A flag takes no value. -/
structure OptionSpec where
  name : String
  short : Option Char
  takesValue : Bool
  accepts : String → Bool

/-- Which arguments may stand together: before the command, or after it. -/
structure Level where
  options : List OptionSpec
  plainLimit : Nat
  hasVersion : Bool

/-- Why reading ends early: the arguments are wrong, or ask for information only. -/
inductive Stop where
  | misuse
  | information
  deriving Repr, DecidableEq

/-- The options and plain arguments read so far. -/
structure Given where
  options : List (String × String)
  plain : List String
  deriving Repr, DecidableEq

namespace Given

def empty : Given :=
  ⟨[], []⟩

def has (g : Given) (name : String) : Bool :=
  (g.options.lookup name).isSome

def value? (g : Given) (name : String) : Option String :=
  g.options.lookup name

/-- Takes note of an option, which must be new and have an acceptable value. -/
def addOption (g : Given) (o : OptionSpec) (value : String) : Except Stop Given :=
  if g.has o.name || !o.accepts value then .error .misuse
  else .ok { g with options := g.options ++ [(o.name, value)] }

/-- Takes note of a plain argument. -/
def addPlain (g : Given) (l : Level) (argument : String) : Except Stop Given :=
  if g.plain.length < l.plainLimit then .ok { g with plain := g.plain ++ [argument] }
  else .error .misuse

end Given

/-- Whether an argument looks like an option. -/
def isOptionLike (argument : String) : Bool :=
  match argument.toList with
  | '-' :: _ :: _ => true
  | _ => false

/-- What the next argument has to supply: nothing, or the value of an option. -/
abbrev Pending := Option OptionSpec

/-- Reads the letters of an argument with one dash. -/
def readShort (l : Level) (g : Given) : List Char → Except Stop (Given × Pending)
  | [] => .ok (g, none)
  | c :: rest =>
    match l.options.find? fun o => o.short == some c with
    | some o =>
      if o.takesValue then
        match rest with
        | [] => .ok (g, some o)
        | '=' :: value => (g.addOption o (String.ofList value)).map fun g => (g, none)
        | value => (g.addOption o (String.ofList value)).map fun g => (g, none)
      else
        match g.addOption o "" with
        | .ok g => readShort l g rest
        | .error stop => .error stop
    | none =>
      if c == 'h' || (c == 'V' && l.hasVersion) then .error .information else .error .misuse

/-- Reads an argument with two dashes. -/
def readLong (l : Level) (g : Given) (argument : List Char) : Except Stop (Given × Pending) :=
  let (name, rest) := argument.span (· != '=')
  let name := String.ofList name
  match l.options.find? fun o => o.name == name, rest with
  | some o, [] => if o.takesValue then .ok (g, some o) else (g.addOption o "").map fun g => (g, none)
  | some o, _ :: value =>
    if o.takesValue then (g.addOption o (String.ofList value)).map fun g => (g, none)
    else .error .misuse
  | none, rest =>
    if rest.isEmpty && (name == "help" || (name == "version" && l.hasVersion)) then
      .error .information
    else .error .misuse

/-- Reads one argument that looks like an option. -/
def readOption (l : Level) (g : Given) (argument : String) : Except Stop (Given × Pending) :=
  match argument.toList with
  | '-' :: '-' :: rest => readLong l g rest
  | _ :: rest => readShort l g rest
  | [] => .error .misuse

/-- Reads arguments up to a plain one that `isCommand` accepts, and gives it with the rest. -/
def readArguments (l : Level) (isCommand : String → Bool) (g : Given) :
    List String → Except Stop (Given × Option (String × List String))
  | [] => .ok (g, none)
  | argument :: rest =>
    if argument == "--" then
      (rest.foldlM (fun (g : Given) a => g.addPlain l a) g).map fun g => (g, none)
    else if isOptionLike argument then
      match readOption l g argument with
      | .error stop => .error stop
      | .ok (g, none) => readArguments l isCommand g rest
      | .ok (g, some o) =>
        match rest with
        | [] => .error .misuse
        | value :: rest =>
          if isOptionLike value then .error .misuse
          else
            match g.addOption o value with
            | .error stop => .error stop
            | .ok g => readArguments l isCommand g rest
    else if isCommand argument then .ok (g, some (argument, rest))
    else
      match g.addPlain l argument with
      | .error stop => .error stop
      | .ok g => readArguments l isCommand g rest

/-! ### The commands -/

/-- The value of a decimal integer of 64 bits with an optional sign. -/
def integer? (text : String) : Option Int :=
  let (negative, digits) := match text.toList with
    | '-' :: rest => (true, rest)
    | '+' :: rest => (false, rest)
    | rest => (false, rest)
  if digits.isEmpty || !digits.all Char.isDigit then none
  else
    let magnitude : Nat := digits.foldl (fun n d => n * 10 + (d.toNat - '0'.toNat)) 0
    let n : Int := if negative then -magnitude else magnitude
    if fitsInt64 n then some n else none

def flag (name : String) (short : Option Char) : OptionSpec :=
  ⟨name, short, false, fun _ => true⟩

def valued (name : String) (short : Option Char) : OptionSpec :=
  ⟨name, short, true, fun _ => true⟩

/-- The options of all commands. -/
def globalOptions : List OptionSpec :=
  [flag "quiet" (some 'q'), flag "verbose" (some 'v'), valued "config" none]

/-- Before the command. -/
def outerLevel : Level :=
  ⟨globalOptions, 0, true⟩

/-- After the command that resolves a program. -/
def resolveLevel : Level :=
  ⟨valued "output" (some 'o') :: globalOptions, 1, false⟩

/-- After the command that builds a program. -/
def buildLevel : Level :=
  ⟨[valued "output" (some 'o'), flag "retime" none,
    ⟨"target", none, true, fun text => (integer? text).isSome⟩, valued "dot-dir" none] ++
    globalOptions, 1, false⟩

/-- What to build, and how. -/
structure BuildOptions where
  config : Option String
  input : String
  output : Option String
  retime : Bool
  target : Option Int
  dotDirectory : Option String
  deriving Repr, DecidableEq

/-- What a command line asks for. -/
inductive Request where
  | resolve (input : String) (output : Option String)
  | build (options : BuildOptions)
  deriving Repr, DecidableEq

def isCommandName (argument : String) : Bool :=
  ["resolve", "build", "help"].contains argument

/-- Reads what follows a command. -/
def readInner (l : Level) (arguments : List String) : Except Stop (Given × String) := do
  let (g, _) ← readArguments l (fun _ => false) .empty arguments
  match g.plain with
  | input :: _ => return (g, input)
  | [] => throw .misuse

/-- What a command line asks for, if it is right. An option after the command wins over the same
option before it. -/
def readRequest (arguments : List String) : Except Stop Request := do
  match ← readArguments outerLevel isCommandName .empty arguments with
  | (_, none) => throw .misuse
  | (outer, some (command, rest)) =>
    match command with
    | "resolve" =>
      let (g, input) ← readInner resolveLevel rest
      return .resolve input (g.value? "output")
    | "build" =>
      let (g, input) ← readInner buildLevel rest
      return .build {
        config := (g.value? "config").or (outer.value? "config")
        input := input
        output := g.value? "output"
        retime := g.has "retime"
        target := (g.value? "target").bind integer?
        dotDirectory := g.value? "dot-dir" }
    | _ =>
      match rest with
      | [] => throw .information
      | [topic] => if isCommandName topic then throw .information else throw .misuse
      | _ => throw .misuse

end NetlistCompiler.Command
