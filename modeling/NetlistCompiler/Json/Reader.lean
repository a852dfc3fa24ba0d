import NetlistCompiler.Json

/-!
# Reading JSON text

The grammar is strict: no comments, no trailing commas, no leading zeros, no control characters
inside strings, nothing after the value. Strings with an unpaired surrogate, objects with such a
name, and arrays and objects that nest more than `nestingLimit` deep are read as garbled values.
-/

namespace NetlistCompiler

namespace Json

/-- The deepest nesting of arrays and objects that are read in full. -/
def nestingLimit : Nat := 127

/-- The characters that may stand between tokens. -/
def isBlank (c : Char) : Bool :=
  c == ' ' || c == '\n' || c == '\t' || c == '\r'

def skipBlanks (cs : List Char) : List Char :=
  cs.dropWhile isBlank

def hexDigit? (c : Char) : Option Nat :=
  if '0' ≤ c ∧ c ≤ '9' then some (c.toNat - '0'.toNat)
  else if 'a' ≤ c ∧ c ≤ 'f' then some (c.toNat - 'a'.toNat + 10)
  else if 'A' ≤ c ∧ c ≤ 'F' then some (c.toNat - 'A'.toNat + 10)
  else none

/-- The 16-bit unit that four hexadecimal digits spell. -/
def unit? (a b c d : Char) : Option Nat := do
  let a ← hexDigit? a
  let b ← hexDigit? b
  let c ← hexDigit? c
  let d ← hexDigit? d
  return ((a * 16 + b) * 16 + c) * 16 + d

def isHighSurrogate (u : Nat) : Bool :=
  0xD800 ≤ u && u < 0xDC00

def isLowSurrogate (u : Nat) : Bool :=
  0xDC00 ≤ u && u < 0xE000

/-- The character of a surrogate pair. -/
def ofSurrogates (high low : Nat) : Char :=
  Char.ofNat (0x10000 + (high - 0xD800) * 0x400 + (low - 0xDC00))

/-- The character that a backslash and one letter stand for. -/
def shortEscape? : Char → Option Char
  | '"' => some '"'
  | '\\' => some '\\'
  | '/' => some '/'
  | 'b' => some '\x08'
  | 'f' => some '\x0c'
  | 'n' => some '\n'
  | 'r' => some '\r'
  | 't' => some '\t'
  | _ => none

/-- What a 16-bit unit adds to a string after a high surrogate that may wait for its other half:
whether everything is still paired, the surrogate that waits now, and the characters, last first. -/
def addUnit (paired : Bool) (high : Option Nat) (read : List Char) (u : Nat) :
    Bool × Option Nat × List Char :=
  match high, isLowSurrogate u with
  | some h, true => (paired, none, ofSurrogates h u :: read)
  | none, true => (false, none, read)
  | high, false =>
    let paired := paired && high.isNone
    if isHighSurrogate u then (paired, some u, read) else (paired, none, Char.ofNat u :: read)

/-- Reads a string after its opening quote; `read` holds the characters so far, last first. There
is no string unless all surrogates are paired. -/
def readString (paired : Bool) (high : Option Nat) (read : List Char) :
    List Char → Option (Option String × List Char)
  | '"' :: rest =>
    some (if paired && high.isNone then some (String.ofList read.reverse) else none, rest)
  | '\\' :: 'u' :: a :: b :: c :: d :: rest =>
    match unit? a b c d with
    | none => none
    | some u =>
      let (paired, high, read) := addUnit paired high read u
      readString paired high read rest
  | '\\' :: c :: rest =>
    match shortEscape? c with
    | none => none
    | some e => readString (paired && high.isNone) none (e :: read) rest
  | c :: rest =>
    if c.toNat < 0x20 then none else readString (paired && high.isNone) none (c :: read) rest
  | [] => none

/-- The number that decimal digits spell. -/
def natOfDigits (ds : List Char) : Nat :=
  ds.foldl (fun n d => n * 10 + (d.toNat - '0'.toNat)) 0

/-- Splits a fraction off: the empty list, or a point and at least one digit. -/
def readFraction : List Char → Option (List Char × List Char)
  | '.' :: cs =>
    let (digits, rest) := cs.span Char.isDigit
    if digits.isEmpty then none else some ('.' :: digits, rest)
  | cs => some ([], cs)

/-- Splits an exponent off: the empty list, or a mark, an optional sign and at least one digit. -/
def readExponent : List Char → Option (List Char × List Char)
  | [] => some ([], [])
  | c :: cs =>
    if c == 'e' || c == 'E' then
      let (sign, cs) := match cs with
        | '+' :: cs => (['+'], cs)
        | '-' :: cs => (['-'], cs)
        | cs => ([], cs)
      let (digits, rest) := cs.span Char.isDigit
      if digits.isEmpty then none else some (c :: sign ++ digits, rest)
    else some ([], c :: cs)

/-- Reads a number. Only a number without fraction, exponent or negative zero is an integer. -/
def readNumber (cs : List Char) : Option (Json × List Char) := do
  let (sign, cs) := match cs with
    | '-' :: cs => (['-'], cs)
    | cs => ([], cs)
  let (whole, cs) := cs.span Char.isDigit
  if whole.isEmpty || (whole.head? == some '0' && whole.length != 1) then none
  let (fraction, cs) ← readFraction cs
  let (exponent, cs) ← readExponent cs
  let n := natOfDigits whole
  if fraction.isEmpty && exponent.isEmpty && !(sign == ['-'] && n == 0) then
    return (.int (if sign.isEmpty then n else -n), cs)
  else
    return (.real (String.ofList (sign ++ whole ++ fraction ++ exponent)), cs)

/-- An array or object, garbled if there is no depth left for it. -/
def withinDepth (depth : Nat) (read : Option (Json × List Char)) : Option (Json × List Char) :=
  if depth = 0 then read.map fun (_, rest) => (.garbled, rest) else read

mutual

/-- Reads one value. Every call takes one unit of `fuel`, every array or object one of `depth`. -/
def readValue (fuel depth : Nat) (cs : List Char) : Option (Json × List Char) :=
  match fuel with
  | 0 => none
  | fuel + 1 =>
    match skipBlanks cs with
    | 'n' :: 'u' :: 'l' :: 'l' :: rest => some (.null, rest)
    | 't' :: 'r' :: 'u' :: 'e' :: rest => some (.bool true, rest)
    | 'f' :: 'a' :: 'l' :: 's' :: 'e' :: rest => some (.bool false, rest)
    | '"' :: rest =>
      (readString true none [] rest).map fun (s, rest) => ((s.map .string).getD .garbled, rest)
    | '[' :: rest =>
      withinDepth depth <|
        match skipBlanks rest with
        | ']' :: rest => some (.array [], rest)
        | rest => readItems fuel (depth - 1) [] rest
    | '{' :: rest =>
      withinDepth depth <|
        match skipBlanks rest with
        | '}' :: rest => some (.object [], rest)
        | rest => readMembers fuel (depth - 1) true [] rest
    | cs => readNumber cs

/-- Reads the items of an array up to its closing bracket. -/
def readItems (fuel depth : Nat) (items : List Json) (cs : List Char) :
    Option (Json × List Char) :=
  match fuel with
  | 0 => none
  | fuel + 1 =>
    match readValue fuel depth cs with
    | none => none
    | some (item, rest) =>
      match skipBlanks rest with
      | ',' :: rest => readItems fuel depth (item :: items) rest
      | ']' :: rest => some (.array (item :: items).reverse, rest)
      | _ => none

/-- Reads the members of an object up to its closing brace. `named` tells whether all members so
far have a name. -/
def readMembers (fuel depth : Nat) (named : Bool) (members : List (String × Json))
    (cs : List Char) : Option (Json × List Char) :=
  match fuel with
  | 0 => none
  | fuel + 1 =>
    match skipBlanks cs with
    | '"' :: rest =>
      match readString true none [] rest with
      | none => none
      | some (name, rest) =>
        match skipBlanks rest with
        | ':' :: rest =>
          match readValue fuel depth rest with
          | none => none
          | some (value, rest) =>
            let named := named && name.isSome
            let members := (name.getD "", value) :: members
            match skipBlanks rest with
            | ',' :: rest => readMembers fuel depth named members rest
            | '}' :: rest => some (if named then .object members.reverse else .garbled, rest)
            | _ => none
        | _ => none
    | _ => none

end

/-- The value that a text holds, if the whole text is one JSON value. -/
def parse? (text : String) : Option Json :=
  let cs := text.toList
  match readValue (2 * cs.length + 2) nestingLimit cs with
  | some (j, rest) => if (skipBlanks rest).isEmpty then some j else none
  | none => none

end Json

end NetlistCompiler
