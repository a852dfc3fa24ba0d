import NetlistCompiler.Json
import NetlistCompiler.Word

/-!
# Records and alternatives in JSON

A record is an object that may hold unknown members but no known one twice, or an array of the
fields in order, in which fields may be left off at the end. An alternative is its tag alone or an
object whose only member is named by the tag. The parts of a value are smaller than the value, so
that a reader can recurse on them.
-/

namespace NetlistCompiler

namespace Json

/-- A value smaller than another one. -/
abbrev Part (whole : Json) := { j : Json // sizeOf j < sizeOf whole }

theorem sizeOf_lt_of_mem_items {items : List Json} {j : Json} (h : j ∈ items) :
    sizeOf j < sizeOf (Json.array items) := by
  have := List.sizeOf_lt_of_mem h
  simp only [Json.array.sizeOf_spec]
  omega

theorem sizeOf_lt_of_mem_members {members : List (String × Json)} {m : String × Json}
    (h : m ∈ members) : sizeOf m.2 < sizeOf (Json.object members) := by
  have := List.sizeOf_lt_of_mem h
  obtain ⟨name, j⟩ := m
  simp only [Prod.mk.sizeOf_spec, Json.object.sizeOf_spec] at this ⊢
  omega

theorem sizeOf_null_lt (s : String) : sizeOf Json.null < sizeOf (Json.string s) := by
  obtain ⟨bytes, _⟩ := s
  simp only [Json.null.sizeOf_spec, Json.string.sizeOf_spec, String.ofByteArray.sizeOf_spec]
  omega

/-- The items of an array. -/
def items? : (j : Json) → Option (List (Part j))
  | .array items => some (items.attach.map fun ⟨j, h⟩ => ⟨j, sizeOf_lt_of_mem_items h⟩)
  | _ => none

/-- The named parts of a record with the given fields. -/
def record? (fields : List String) : (j : Json) → Option (List (String × Part j))
  | .object members =>
    if fields.all fun field => (members.filter fun m => m.1 == field).length ≤ 1 then
      some (members.attach.map fun ⟨m, h⟩ => (m.1, ⟨m.2, sizeOf_lt_of_mem_members h⟩))
    else none
  | .array items =>
    if items.length ≤ fields.length then
      some (fields.zip (items.attach.map fun ⟨j, h⟩ => ⟨j, sizeOf_lt_of_mem_items h⟩))
    else none
  | _ => none

/-- The tag and the body of an alternative; a tag alone has the body `null`. -/
def variant? : (j : Json) → Option (String × Part j)
  | .string tag => some (tag, ⟨.null, sizeOf_null_lt tag⟩)
  | .object [(tag, body)] =>
    some (tag, ⟨body, sizeOf_lt_of_mem_members (List.mem_singleton_self (tag, body))⟩)
  | _ => none

namespace Part

variable {j : Json}

theorem sizeOf_lt (p : Part j) : sizeOf p.1 < sizeOf j :=
  p.2

/-- A part of a part. -/
def below (p : Part j) (q : Part p.1) : Part j :=
  ⟨q.1, Nat.lt_trans q.2 p.2⟩

/-- The items of an array. -/
def items? (p : Part j) : Option (List (Part j)) :=
  p.1.items?.map fun items => items.map p.below

/-- The named parts of a record with the given fields. -/
def record? (fields : List String) (p : Part j) : Option (List (String × Part j)) :=
  (p.1.record? fields).map fun parts => parts.map fun (name, q) => (name, p.below q)

end Part

/-- The text of a string. -/
def string? : Json → Option String
  | .string s => some s
  | _ => none

/-- The integer of a number that fits in 64 bits with a sign. -/
def int64? : Json → Option Int64
  | .int n => if fitsInt64 n then some (Int64.ofInt n) else none
  | _ => none

/-- The items of an optional array, none if it is absent. -/
def itemsOr {j : Json} (p : Option (Part j)) : Option (List (Part j)) :=
  match p with
  | none => some []
  | some p => p.items?

end Json

end NetlistCompiler
