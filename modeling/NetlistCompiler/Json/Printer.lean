import NetlistCompiler.Json

/-!
# Writing JSON text

Strings escape quotes, backslashes and control characters and nothing else. A value is written on
one line without blanks, or over lines with two blanks of indentation for each level.
-/

namespace NetlistCompiler

namespace Json

/-- The characters that stand for one character inside a written string. -/
def escapeChar (c : Char) : List Char :=
  if c == '"' then ['\\', '"']
  else if c == '\\' then ['\\', '\\']
  else if c == '\x08' then ['\\', 'b']
  else if c == '\x0c' then ['\\', 'f']
  else if c == '\n' then ['\\', 'n']
  else if c == '\r' then ['\\', 'r']
  else if c == '\t' then ['\\', 't']
  else if c.toNat < 0x20 then
    ['\\', 'u', '0', '0', (c.toNat / 16).digitChar, (c.toNat % 16).digitChar]
  else [c]

/-- A string between its quotes. -/
def quote (s : String) : String :=
  "\"" ++ String.ofList (s.toList.flatMap escapeChar) ++ "\""

/-- The decimal digits of an integer, after a minus sign if it is negative. -/
def intText (n : Int) : String :=
  if n < 0 then "-" ++ toString n.natAbs else toString n.natAbs

mutual

/-- The value on one line, without blanks. -/
def render : Json → String
  | .null => "null"
  | .bool true => "true"
  | .bool false => "false"
  | .int n => intText n
  | .real literal => literal
  | .string s => quote s
  | .array items => "[" ++ ",".intercalate (renderItems items) ++ "]"
  | .object members => "\x7b" ++ ",".intercalate (renderMembers members) ++ "\x7d"
  | .garbled => "null"

def renderItems : List Json → List String
  | [] => []
  | j :: rest => j.render :: renderItems rest

def renderMembers : List (String × Json) → List String
  | [] => []
  | (name, j) :: rest => (quote name ++ ":" ++ j.render) :: renderMembers rest

end

/-- A line break followed by the blanks of a level. -/
def newline (level : Nat) : String :=
  "\n" ++ String.ofList (List.replicate (2 * level) ' ')

/-- Entries between brackets, each on a line of its own. -/
def block (opening closing : String) (level : Nat) (entries : List String) : String :=
  if entries.isEmpty then opening ++ closing
  else
    opening ++ newline (level + 1) ++ ("," ++ newline (level + 1)).intercalate entries ++
      newline level ++ closing

mutual

/-- The value over lines, as it stands at an indentation level. -/
def renderAt (level : Nat) : Json → String
  | .array items => block "[" "]" level (renderItemsAt (level + 1) items)
  | .object members => block "\x7b" "\x7d" level (renderMembersAt (level + 1) members)
  | j => j.render

def renderItemsAt (level : Nat) : List Json → List String
  | [] => []
  | j :: rest => j.renderAt level :: renderItemsAt level rest

def renderMembersAt (level : Nat) : List (String × Json) → List String
  | [] => []
  | (name, j) :: rest => (quote name ++ ": " ++ j.renderAt level) :: renderMembersAt level rest

end

/-- The value over lines. -/
def pretty (j : Json) : String :=
  j.renderAt 0

end Json

end NetlistCompiler
