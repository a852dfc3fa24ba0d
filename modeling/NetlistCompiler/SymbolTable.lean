/-!
# Symbol tables

A symbol table numbers names in the order in which they are first mentioned.
-/

namespace NetlistCompiler

/-- The names mentioned so far, each once. -/
structure SymbolTable where
  names : Array String
  deriving Repr

namespace SymbolTable

def empty : SymbolTable :=
  ⟨#[]⟩

/-- The number of a name. -/
def find? (t : SymbolTable) (name : String) : Option Nat :=
  t.names.findIdx? fun n => n == name

/-- The name with a number. -/
def name? (t : SymbolTable) (id : Nat) : Option String :=
  t.names[id]?

/-- The number of a name, which gets the next number if it is new. -/
def intern (t : SymbolTable) (name : String) : Nat × SymbolTable :=
  match t.find? name with
  | some id => (id, t)
  | none => (t.names.size, ⟨t.names.push name⟩)

/-- The table of names mentioned in order. -/
def ofList (names : List String) : SymbolTable :=
  names.foldl (fun t name => (t.intern name).2) .empty

end SymbolTable

end NetlistCompiler
