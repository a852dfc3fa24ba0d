/-!
# TOML documents

A document is a table of values. Its text is a sequence of pairs and headers, and a table can be
opened in several places: by its own header, by the header of a table inside it, or by dotted keys.
Tables under construction remember how they came to be, because each way may only be continued in
some of the others.
-/

namespace NetlistCompiler

/-- A TOML value. Floats and dates keep the text they were written with. -/
inductive Toml where
  | string (value : String)
  | integer (value : Int)
  | float (literal : String)
  | boolean (value : Bool)
  | date (literal : String)
  | array (items : List Toml)
  | table (members : List (String × Toml))
  deriving Repr, Inhabited

namespace Toml

/-- A key of one or more parts. -/
structure Key where
  parents : List String
  name : String
  deriving Repr, DecidableEq

/-- How a table came to be: by its own header, on the way to the table of another header, or on the
way to a value. -/
inductive Origin where
  | header
  | implied
  | dotted
  deriving Repr, DecidableEq

/-- A member of a table under construction: a value, a table, or the tables of a repeated header. -/
inductive Item where
  | value (value : Toml)
  | table (origin : Origin) (members : List (String × Item))
  | tables (tables : List (List (String × Item)))
  deriving Repr

/-- The members of a table under construction. -/
abbrev Members := List (String × Item)

namespace Members

/-- Sets a member. -/
def set (ms : Members) (name : String) (item : Item) : Members :=
  ms.filter (fun m => m.1 != name) ++ [(name, item)]

/-- Gives a name a value. No name gets a second value. Dotted keys open tables, and continue those
that other dotted keys have opened. -/
def insert (v : Toml) (name : String) : List String → Members → Option Members
  | [], ms => if (ms.lookup name).isSome then none else some (ms.set name (.value v))
  | parent :: rest, ms =>
    match ms.lookup parent with
    | none => (insert v name rest []).map fun inner => ms.set parent (.table .dotted inner)
    | some (.table origin inner) =>
      if origin = .header ∨ (rest = [] ∧ origin ≠ .dotted) then none
      else (insert v name rest inner).map fun inner => ms.set parent (.table origin inner)
    | some (.tables ts) =>
      if rest = [] then none
      else (insert v name rest (ts.getLastD [])).map fun inner =>
        ms.set parent (.tables (ts.dropLast ++ [inner]))
    | some (.value _) => none

/-- Adds pairs of keys and values. -/
def insertAll (ms : Members) (pairs : List (Key × Toml)) : Option Members :=
  pairs.foldlM (fun ms (key, v) => ms.insert v key.name key.parents) ms

/-- Changes the members of the table that some names lead to. A repeated header leads to its last
table. -/
def modifyAt (change : Members → Option Members) : List String → Members → Option Members
  | [], ms => change ms
  | name :: rest, ms =>
    match ms.lookup name with
    | none => (modifyAt change rest []).map fun inner => ms.set name (.table .implied inner)
    | some (.table origin inner) =>
      (modifyAt change rest inner).map fun inner => ms.set name (.table origin inner)
    | some (.tables ts) =>
      (modifyAt change rest (ts.getLastD [])).map fun inner =>
        ms.set name (.tables (ts.dropLast ++ [inner]))
    | some (.value _) => none

/-- Opens a table by its header, which happens once, and adds pairs. -/
def openTable (name : String) (pairs : List (Key × Toml)) (ms : Members) : Option Members :=
  match ms.lookup name with
  | none => (insertAll [] pairs).map fun inner => ms.set name (.table .header inner)
  | some (.table .implied inner) =>
    (insertAll inner pairs).map fun inner => ms.set name (.table .header inner)
  | some _ => none

/-- Opens one more table of a repeated header, and adds pairs. -/
def openNext (name : String) (pairs : List (Key × Toml)) (ms : Members) : Option Members :=
  match ms.lookup name with
  | none => (insertAll [] pairs).map fun inner => ms.set name (.tables [inner])
  | some (.tables ts) => (insertAll [] pairs).map fun inner => ms.set name (.tables (ts ++ [inner]))
  | some _ => none

end Members

mutual

/-- The finished value of an item. -/
def Item.toToml : Item → Toml
  | .value v => v
  | .table _ members => .table (finish members)
  | .tables ts => .array (finishAll ts)

/-- The finished members of a table. -/
def finish : List (String × Item) → List (String × Toml)
  | [] => []
  | (name, item) :: rest => (name, item.toToml) :: finish rest

/-- The finished tables of a repeated header. -/
def finishAll : List (List (String × Item)) → List Toml
  | [] => []
  | members :: rest => .table (finish members) :: finishAll rest

end

/-- The table of pairs that stand on their own. -/
def ofPairs (pairs : List (Key × Toml)) : Option Toml :=
  (Members.insertAll [] pairs).map fun ms => .table (finish ms)

/-- What a header opens. -/
inductive Header where
  | table (key : Key)
  | nextTable (key : Key)
  deriving Repr, DecidableEq

/-- A header and the pairs up to the next one. -/
structure Section where
  header : Header
  pairs : List (Key × Toml)
  deriving Repr

/-- Adds a section to a document. -/
def Section.addTo (ms : Members) (s : Section) : Option Members :=
  match s.header with
  | .table key => ms.modifyAt (Members.openTable key.name s.pairs) key.parents
  | .nextTable key => ms.modifyAt (Members.openNext key.name s.pairs) key.parents

/-- The document of some pairs and the sections after them. -/
def ofSections (pairs : List (Key × Toml)) (sections : List Section) : Option Toml := do
  let ms ← Members.insertAll [] pairs
  let ms ← sections.foldlM Section.addTo ms
  return .table (finish ms)

/-- The values of the given fields: the members of a table, or the items of an array in the order of
the fields. A date has none of them. -/
def fields? (names : List String) : Toml → Option (List (String × Toml))
  | .table members => some members
  | .array items => some (names.zip items)
  | .date _ => some []
  | _ => none

/-- The value of a boolean. -/
def boolean? : Toml → Option Bool
  | .boolean b => some b
  | _ => none

/-- The value of an integer. -/
def integer? : Toml → Option Int
  | .integer n => some n
  | _ => none

/-- The items of an array. -/
def items? : Toml → Option (List Toml)
  | .array items => some items
  | _ => none

/-- The members of a table. -/
def members? : Toml → Option (List (String × Toml))
  | .table members => some members
  | _ => none

end Toml

end NetlistCompiler
