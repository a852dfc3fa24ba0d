import NetlistCompiler.Toml
import NetlistCompiler.Word

/-!
# Numbers, dates and truth values in TOML

A scalar other than a string is a run of letters, digits and signs. Digits may be grouped by single
underscores, decimal integers have no leading zeros and fit in 64 bits with a sign, floats are
finite unless written as `inf` or `nan`, and dates and times exist in the calendar.
-/

namespace NetlistCompiler

namespace Toml

/-- The characters of scalars. -/
def isScalarChar (c : Char) : Bool :=
  c.isAlphanum || c == '+' || c == '-' || c == '_' || c == '.' || c == ':'

/-- The value of a digit. -/
def digit? (base : Nat) (c : Char) : Option Nat :=
  let value :=
    if '0' ≤ c ∧ c ≤ '9' then c.toNat - '0'.toNat
    else if 'a' ≤ c ∧ c ≤ 'f' then c.toNat - 'a'.toNat + 10
    else if 'A' ≤ c ∧ c ≤ 'F' then c.toNat - 'A'.toNat + 10
    else base
  if value < base then some value else none

/-- The values of digits in groups; an underscore stands between two digits. -/
def grouped? (base : Nat) : List Char → Option (List Nat)
  | [] => none
  | c :: rest =>
    match digit? base c, rest with
    | none, _ => none
    | some d, [] => some [d]
    | some d, '_' :: rest => (grouped? base rest).map (d :: ·)
    | some d, rest => (grouped? base rest).map (d :: ·)

/-- The number that digits spell. -/
def ofDigits (base : Nat) (digits : List Nat) : Nat :=
  digits.foldl (fun n d => n * base + d) 0

/-- An integer that fits in 64 bits with a sign. -/
def bounded? (n : Int) : Option Toml :=
  if fitsInt64 n then some (.integer n) else none

/-- The digits of a decimal number without leading zeros. -/
def decimal? (cs : List Char) : Option (List Nat) :=
  match grouped? 10 cs with
  | some (0 :: _ :: _) => none
  | digits => digits

/-- Whether `digits` times a power of ten rounds to a finite number of double precision. -/
def isFinite (digits : List Nat) (exponent : Int) : Bool :=
  let digits := digits.dropWhile (· == 0)
  let magnitude := (digits.length : Int) + exponent
  if digits.isEmpty || magnitude < 309 then true
  else if 309 < magnitude then false
  else
    let n := ofDigits 10 digits
    let limit := Nat.pow 2 1024 - Nat.pow 2 970
    n * Nat.pow 10 exponent.toNat < limit * Nat.pow 10 (-exponent).toNat

/-- The exponent of a float: 0 for no text, else a mark, an optional sign and digits. -/
def exponent? : List Char → Option Int
  | [] => some 0
  | c :: cs =>
    if c == 'e' || c == 'E' then
      match cs with
      | '-' :: cs => (grouped? 10 cs).map fun ds => -(ofDigits 10 ds : Int)
      | '+' :: cs => (grouped? 10 cs).map fun ds => (ofDigits 10 ds : Int)
      | cs => (grouped? 10 cs).map fun ds => (ofDigits 10 ds : Int)
    else none

def isExponentMark (c : Char) : Bool :=
  c == 'e' || c == 'E'

/-- A decimal integer or a float, after its sign. -/
def number? (negative : Bool) (text : String) (cs : List Char) : Option Toml := do
  let (whole, rest) := cs.span fun c => c.isDigit || c == '_'
  let digits ← decimal? whole
  match rest with
  | [] => bounded? (if negative then -(ofDigits 10 digits : Int) else ofDigits 10 digits)
  | '.' :: rest =>
    let (fraction, rest) := rest.span fun c => !isExponentMark c
    let fraction ← grouped? 10 fraction
    let exponent ← exponent? rest
    if negative || isFinite (digits ++ fraction) (exponent - fraction.length) then
      return .float text
    else none
  | rest =>
    let exponent ← exponent? rest
    if negative || isFinite digits exponent then return .float text else none

/-! ### Dates -/

/-- The number that two decimal digits spell, up to a limit. -/
def two? (limit : Nat) (a b : Char) : Option Nat := do
  let n := (← digit? 10 a) * 10 + (← digit? 10 b)
  if n ≤ limit then return n else none

def isLeapYear (year : Nat) : Bool :=
  year % 4 == 0 && (year % 100 != 0 || year % 400 == 0)

/-- The number of days of a month. -/
def daysIn (year month : Nat) : Nat :=
  if month == 2 then (if isLeapYear year then 29 else 28)
  else if month == 4 || month == 6 || month == 9 || month == 11 then 30
  else 31

/-- What follows a date. -/
def afterDate? : List Char → Option (List Char)
  | y1 :: y2 :: y3 :: y4 :: '-' :: m1 :: m2 :: '-' :: d1 :: d2 :: rest => do
    let year := (← two? 99 y1 y2) * 100 + (← two? 99 y3 y4)
    let month ← two? 12 m1 m2
    let day ← two? 31 d1 d2
    if 1 ≤ month ∧ 1 ≤ day ∧ day ≤ daysIn year month then return rest else none
  | _ => none

/-- What follows a time. -/
def afterTime? : List Char → Option (List Char)
  | h1 :: h2 :: ':' :: m1 :: m2 :: ':' :: s1 :: s2 :: rest => do
    let _ ← two? 23 h1 h2
    let _ ← two? 59 m1 m2
    let _ ← two? 60 s1 s2
    match rest with
    | '.' :: rest =>
      let (fraction, rest) := rest.span Char.isDigit
      if fraction.isEmpty then none else return rest
    | rest => return rest
  | _ => none

/-- Whether a text is empty or the distance of a time zone. -/
def isOffset : List Char → Bool
  | [] => true
  | ['Z'] => true
  | ['z'] => true
  | [sign, h1, h2, ':', m1, m2] =>
    (sign == '+' || sign == '-') && (two? 23 h1 h2).isSome && (two? 59 m1 m2).isSome
  | _ => false

/-- Whether a text is a time, possibly with a time zone. -/
def isZonedTime (cs : List Char) : Bool :=
  (afterTime? cs).any isOffset

/-- Whether a text is a date, a time, or a date and a time joined by a letter. -/
def isDate (cs : List Char) : Bool :=
  match afterDate? cs with
  | some [] => true
  | some (c :: rest) => (c == 'T' || c == 't') && isZonedTime rest
  | none => (afterTime? cs).any List.isEmpty

/-! ### Scalars -/

/-- A number with or without a sign. -/
def signed? (text : String) : List Char → Option Toml
  | '0' :: 'x' :: cs => (grouped? 16 cs).bind fun ds => bounded? (ofDigits 16 ds)
  | '0' :: 'o' :: cs => (grouped? 8 cs).bind fun ds => bounded? (ofDigits 8 ds)
  | '0' :: 'b' :: cs => (grouped? 2 cs).bind fun ds => bounded? (ofDigits 2 ds)
  | '+' :: cs => number? false text cs
  | '-' :: cs => number? true text cs
  | cs => number? false text cs

/-- The value of a scalar. -/
def scalar? (cs : List Char) : Option Toml :=
  let text := String.ofList cs
  match text with
  | "true" => some (.boolean true)
  | "false" => some (.boolean false)
  | "inf" | "+inf" | "-inf" | "nan" | "+nan" | "-nan" => some (.float text)
  | _ => if isDate cs then some (.date text) else signed? text cs

end Toml

end NetlistCompiler
