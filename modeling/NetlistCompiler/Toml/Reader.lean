import NetlistCompiler.Toml.Scalar

/-!
# Reading TOML text

Lines hold a pair, a header or nothing, and may end in a comment. Only arrays and multi-line strings
go on over line ends. Arrays and inline tables nest at most `nestingLimit` deep, and keys have at
most as many parts.
-/

namespace NetlistCompiler

namespace Toml

/-- The deepest nesting of arrays and inline tables, and the longest key. -/
def nestingLimit : Nat := 79

def isSpace (c : Char) : Bool :=
  c == ' ' || c == '\t'

def skipSpaces (cs : List Char) : List Char :=
  cs.dropWhile isSpace

/-- The characters that comments and strings may hold. -/
def isTextChar (c : Char) : Bool :=
  c == '\t' || (0x20 ≤ c.toNat && c != '\x7f')

/-- What follows a comment, after its mark. -/
def skipComment (cs : List Char) : List Char :=
  cs.dropWhile isTextChar

/-- What follows the end of a line, which may have a comment. -/
def endLine? (cs : List Char) : Option (List Char) :=
  let cs := match skipSpaces cs with
    | '#' :: rest => skipComment rest
    | cs => cs
  match cs with
  | [] => some []
  | '\n' :: rest => some rest
  | _ => none

/-! ### Strings -/

/-- Where a reader of strings stands: between characters, after a backslash, inside a numbered
character, or after a backslash at the end of a line. -/
inductive TextMode where
  | plain
  | escape
  | code (digits : Nat) (value : Nat)
  | lineEnd (seen : Bool)
  deriving Repr, DecidableEq

/-- The character that a backslash and one letter stand for. -/
def shortEscape? : Char → Option Char
  | '"' => some '"'
  | '\\' => some '\\'
  | 'b' => some '\x08'
  | 'f' => some '\x0c'
  | 'n' => some '\n'
  | 'r' => some '\r'
  | 't' => some '\t'
  | _ => none

/-- The mode and the characters after one more character of an escape. -/
def escapeStep (read : List Char) (c : Char) : Option (TextMode × List Char) :=
  if c == 'u' then some (.code 4 0, read)
  else if c == 'U' then some (.code 8 0, read)
  else (shortEscape? c).map fun e => (.plain, e :: read)

/-- The mode and the characters after one more digit of a numbered character. -/
def codeStep (read : List Char) (digits value : Nat) (c : Char) : Option (TextMode × List Char) := do
  let value := value * 16 + (← digit? 16 c)
  if 1 < digits then return (.code (digits - 1) value, read)
  else if value.isValidChar then return (.plain, Char.ofNat value :: read)
  else none

/-- Reads a string after its opening quote; `read` holds the characters so far, last first. -/
def readString (mode : TextMode) (read : List Char) : List Char → Option (String × List Char)
  | [] => none
  | c :: rest =>
    match mode with
    | .escape =>
      match escapeStep read c with
      | none => none
      | some (mode, read) => readString mode read rest
    | .code digits value =>
      match codeStep read digits value c with
      | none => none
      | some (mode, read) => readString mode read rest
    | _ =>
      if c == '"' then some (String.ofList read.reverse, rest)
      else if c == '\\' then readString .escape read rest
      else if isTextChar c then readString .plain (c :: read) rest
      else none

/-- The end of a multi-line string after three quotes: up to two more belong to the text. -/
def closeText (quote : Char) (read rest : List Char) : String × List Char :=
  let extra := (rest.take 2).takeWhile (· == quote)
  (String.ofList (extra ++ read).reverse, rest.drop extra.length)

/-- Reads a multi-line string after its opening quotes. -/
def readText (mode : TextMode) (read : List Char) : List Char → Option (String × List Char)
  | [] => none
  | c :: rest =>
    let step : Option (TextMode × List Char) :=
      match mode with
      | .escape =>
        if isSpace c then some (.lineEnd false, read)
        else if c == '\n' then some (.lineEnd true, read)
        else escapeStep read c
      | .code digits value => codeStep read digits value c
      | .lineEnd seen =>
        if isSpace c then some (.lineEnd seen, read)
        else if c == '\n' then some (.lineEnd true, read)
        else if !seen then none
        else if c == '\\' then some (.escape, read)
        else if isTextChar c then some (.plain, c :: read)
        else none
      | .plain =>
        if c == '\\' then some (.escape, read)
        else if c == '\n' || isTextChar c then some (.plain, c :: read)
        else none
    let closes := match mode with
      | .plain | .lineEnd true => c == '"'
      | _ => false
    match closes, rest with
    | true, '"' :: '"' :: rest => some (closeText '"' read rest)
    | _, _ =>
      match step with
      | none => none
      | some (mode, read) => readText mode read rest

/-- Reads a literal multi-line string after its opening quotes. -/
def readLiteralText (read : List Char) : List Char → Option (String × List Char)
  | [] => none
  | c :: rest =>
    match c == '\'', rest with
    | true, '\'' :: '\'' :: rest => some (closeText '\'' read rest)
    | _, _ =>
      if c == '\n' || isTextChar c then readLiteralText (c :: read) rest else none

/-- Reads a literal string after its opening quote. -/
def readLiteral (cs : List Char) : Option (String × List Char) :=
  match cs.span fun c => isTextChar c && c != '\'' with
  | (text, '\'' :: rest) => some (String.ofList text, rest)
  | _ => none

/-- A line end right after the opening quotes does not belong to a multi-line string. -/
def skipFirstLineEnd : List Char → List Char
  | '\n' :: rest => rest
  | cs => cs

/-! ### Keys -/

def isBareKeyChar (c : Char) : Bool :=
  c.isAlphanum || c == '_' || c == '-'

/-- Reads one part of a key. -/
def readKeyPart : List Char → Option (String × List Char)
  | '"' :: rest => readString .plain [] rest
  | '\'' :: rest => readLiteral rest
  | cs =>
    let (name, rest) := cs.span isBareKeyChar
    if name.isEmpty then none else some (String.ofList name, rest)

/-- Reads a key of at most the given number of parts. -/
def readKey : Nat → List Char → Option (Key × List Char)
  | 0, _ => none
  | parts + 1, cs =>
    match readKeyPart (skipSpaces cs) with
    | none => none
    | some (part, rest) =>
      match skipSpaces rest with
      | '.' :: rest =>
        match readKey parts rest with
        | none => none
        | some (key, rest) => some (⟨part :: key.parents, key.name⟩, rest)
      | rest => some (⟨[], part⟩, rest)

/-! ### Values -/

/-- Skips spaces, line ends and comments inside an array. -/
def skipLines (inComment : Bool) : List Char → List Char
  | [] => []
  | c :: rest =>
    if c == '\n' then skipLines false rest
    else if inComment then
      if isTextChar c then skipLines true rest else c :: rest
    else if isSpace c then skipLines false rest
    else if c == '#' then skipLines true rest
    else c :: rest

/-- Reads a scalar. A space may stand between a date and a time. -/
def readScalar (cs : List Char) : Option (Toml × List Char) :=
  let (text, rest) := cs.span isScalarChar
  let isDay := afterDate? text == some []
  match isDay, rest with
  | true, ' ' :: c :: rest =>
    if c.isDigit then
      let (time, rest) := (c :: rest).span isScalarChar
      if isZonedTime time then some (.date (String.ofList (text ++ ' ' :: time)), rest) else none
    else some (.date (String.ofList text), ' ' :: c :: rest)
  | _, rest => (scalar? text).map fun v => (v, rest)

mutual

/-- Reads one value. Every call takes one unit of `fuel`, every array or table one of `depth`. -/
def readValue (fuel depth : Nat) (cs : List Char) : Option (Toml × List Char) :=
  match fuel with
  | 0 => none
  | fuel + 1 =>
    match cs with
    | '"' :: '"' :: '"' :: rest =>
      (readText .plain [] (skipFirstLineEnd rest)).map fun (s, rest) => (.string s, rest)
    | '"' :: rest => (readString .plain [] rest).map fun (s, rest) => (.string s, rest)
    | '\'' :: '\'' :: '\'' :: rest =>
      (readLiteralText [] (skipFirstLineEnd rest)).map fun (s, rest) => (.string s, rest)
    | '\'' :: rest => (readLiteral rest).map fun (s, rest) => (.string s, rest)
    | '[' :: rest =>
      match depth with
      | 0 => none
      | depth + 1 => readItems fuel depth [] rest
    | '{' :: rest =>
      match depth with
      | 0 => none
      | depth + 1 =>
        match skipSpaces rest with
        | '}' :: rest => some (.table [], rest)
        | rest => readMembers fuel depth [] rest
    | cs => readScalar cs

/-- Reads the items of an array up to its closing bracket; a comma may stand before it. -/
def readItems (fuel depth : Nat) (items : List Toml) (cs : List Char) :
    Option (Toml × List Char) :=
  match fuel with
  | 0 => none
  | fuel + 1 =>
    match skipLines false cs with
    | ']' :: rest => some (.array items.reverse, rest)
    | cs =>
      match readValue fuel depth cs with
      | none => none
      | some (item, rest) =>
        match skipLines false rest with
        | ',' :: rest => readItems fuel depth (item :: items) rest
        | ']' :: rest => some (.array (item :: items).reverse, rest)
        | _ => none

/-- Reads the pairs of an inline table up to its closing brace. -/
def readMembers (fuel depth : Nat) (pairs : List (Key × Toml)) (cs : List Char) :
    Option (Toml × List Char) :=
  match fuel with
  | 0 => none
  | fuel + 1 =>
    match readKey nestingLimit cs with
    | some (key, '=' :: rest) =>
      match readValue fuel depth (skipSpaces rest) with
      | none => none
      | some (value, rest) =>
        match skipSpaces rest with
        | ',' :: rest => readMembers fuel depth ((key, value) :: pairs) rest
        | '}' :: rest => (ofPairs ((key, value) :: pairs).reverse).map fun table => (table, rest)
        | _ => none
    | _ => none

end

/-! ### Documents -/

/-- Reads a pair and the end of its line. -/
def readPair (cs : List Char) : Option ((Key × Toml) × List Char) := do
  match ← readKey nestingLimit cs with
  | (key, '=' :: rest) =>
    let (value, rest) ← readValue (2 * rest.length + 2) nestingLimit (skipSpaces rest)
    return ((key, value), ← endLine? rest)
  | _ => none

/-- Reads a header and the end of its line. -/
def readHeader : List Char → Option (Header × List Char)
  | '[' :: '[' :: cs => do
    match ← readKey nestingLimit cs with
    | (key, ']' :: ']' :: rest) => return (.nextTable key, ← endLine? rest)
    | _ => none
  | '[' :: cs => do
    match ← readKey nestingLimit cs with
    | (key, ']' :: rest) => return (.table key, ← endLine? rest)
    | _ => none
  | _ => none

/-- The pairs before the first header and the sections after it, both last first. -/
structure Outline where
  pairs : List (Key × Toml)
  sections : List Section
  deriving Repr

/-- Adds a pair to the last section. -/
def Outline.addPair (o : Outline) (pair : Key × Toml) : Outline :=
  match o.sections with
  | [] => { o with pairs := o.pairs ++ [pair] }
  | last :: earlier => { o with sections := { last with pairs := last.pairs ++ [pair] } :: earlier }

/-- Reads the lines of a document; every line takes one unit of `fuel`. -/
def readLines (fuel : Nat) (o : Outline) (cs : List Char) : Option Outline :=
  match fuel with
  | 0 => none
  | fuel + 1 =>
    match skipSpaces cs with
    | [] => some o
    | '\n' :: rest => readLines fuel o rest
    | '#' :: rest =>
      match endLine? ('#' :: rest) with
      | none => none
      | some rest => readLines fuel o rest
    | '[' :: rest =>
      match readHeader ('[' :: rest) with
      | none => none
      | some (header, rest) =>
        readLines fuel { o with sections := ⟨header, []⟩ :: o.sections } rest
    | cs =>
      match readPair cs with
      | none => none
      | some (pair, rest) => readLines fuel (o.addPair pair) rest

/-- Every line end as one character; a byte order mark in front is dropped. -/
def normalize (cs : List Char) : List Char :=
  let rec lineEnds : List Char → List Char
    | '\r' :: '\n' :: rest => '\n' :: lineEnds rest
    | c :: rest => c :: lineEnds rest
    | [] => []
  match cs with
  | '\uFEFF' :: rest => lineEnds rest
  | cs => lineEnds cs

/-- The document that a text holds. -/
def parse? (text : String) : Option Toml := do
  let cs := normalize text.toList
  let o ← readLines (cs.length + 1) ⟨[], []⟩ cs
  ofSections o.pairs o.sections.reverse

end Toml

end NetlistCompiler
