import NetlistCompiler.Word

/-!
# Interface shapes

A shape is what an interface expands to: a single wire, a record of named shapes or a vector of
equal shapes. The order of record fields fixes the layout of the wires, but two records agree
whenever they give the same names agreeing shapes.
-/

namespace NetlistCompiler

/-- The concrete shape of a port. -/
inductive Shape where
  | wire
  | record (fields : List (String × Shape))
  | vector (element : Shape) (size : Nat)
  deriving Repr, Inhabited

namespace Shape

/-- A vector of wires. -/
def bus (size : Nat) : Shape :=
  .vector .wire size

/-- The largest width that a port can have. -/
def maxWidth : Nat := maxNat32

/-- The largest number to which a full width counts. -/
def maxFullWidth : Nat := maxNat64

mutual

/-- The number of wires. -/
def wireCount : Shape → Nat
  | .wire => 1
  | .record fields => fieldsWireCount fields
  | .vector element size => element.wireCount * size

def fieldsWireCount : List (String × Shape) → Nat
  | [] => 0
  | (_, s) :: rest => s.wireCount + fieldsWireCount rest

end

mutual

/-- The number of wires, counted up to 64 bits: no sum and no product goes further. -/
def fullWidth : Shape → Nat
  | .wire => 1
  | .record fields => addFieldWidths 0 fields
  | .vector element size => min (element.fullWidth * size) maxFullWidth

/-- Adds the widths of fields to what has been counted. -/
def addFieldWidths (counted : Nat) : List (String × Shape) → Nat
  | [] => counted
  | (_, s) :: rest => addFieldWidths (min (counted + s.fullWidth) maxFullWidth) rest

end

/-- The number of wires if it fits in 32 bits. -/
def checkedWidth? (s : Shape) : Option Nat :=
  if s.fullWidth ≤ maxWidth then some s.fullWidth else none

theorem min_mul_min (a n m : Nat) : min (min a m * n) m = min (a * n) m := by
  by_cases ha : a ≤ m
  · rw [Nat.min_eq_left ha]
  · have ha : m ≤ a := Nat.le_of_not_le ha
    rw [Nat.min_eq_right ha]
    by_cases hn : n = 0
    · rw [hn, Nat.mul_zero, Nat.mul_zero]
    · have hm : m ≤ m * n := Nat.le_mul_of_pos_right m (Nat.pos_of_ne_zero hn)
      rw [Nat.min_eq_right hm, Nat.min_eq_right (Nat.le_trans hm (Nat.mul_le_mul_right n ha))]

mutual

theorem fullWidth_eq : ∀ s : Shape, s.fullWidth = min s.wireCount maxFullWidth
  | .wire => by rw [fullWidth, wireCount]; decide
  | .record fields => by
    rw [fullWidth, wireCount, addFieldWidths_eq fields (Nat.zero_le _), Nat.zero_add]
  | .vector element size => by rw [fullWidth, wireCount, fullWidth_eq element, min_mul_min]

/-- A sum that has stopped at the limit stays there, and until then it is exact. -/
theorem addFieldWidths_eq : ∀ (fields : List (String × Shape)) {counted : Nat},
    counted ≤ maxFullWidth →
      addFieldWidths counted fields = min (counted + fieldsWireCount fields) maxFullWidth
  | [], counted, hcounted => by
    rw [addFieldWidths, fieldsWireCount]
    omega
  | (name, s) :: rest, counted, hcounted => by
    rw [addFieldWidths, addFieldWidths_eq rest (Nat.min_le_right _ _), fullWidth_eq s,
      fieldsWireCount]
    omega

end

/-- The limit of 64 bits lies beyond the one of 32 bits, so the check is one of the exact number. -/
theorem checkedWidth?_eq (s : Shape) :
    s.checkedWidth? = if s.wireCount ≤ maxWidth then some s.wireCount else none := by
  have hlimits : maxWidth < maxFullWidth := by decide
  rw [checkedWidth?, fullWidth_eq]
  by_cases h : s.wireCount ≤ maxWidth
  · rw [Nat.min_eq_left (by omega)]
  · rw [if_neg h, if_neg (by omega)]

/-- The number of wires, counted up to 32 bits. -/
def width (s : Shape) : Nat :=
  min s.wireCount maxWidth

/-- The shape of a record's field. -/
def field? (s : Shape) (name : String) : Option Shape :=
  match s with
  | .record fields => fields.lookup name
  | _ => none

mutual

/-- The shape in words, such as a record of a wire and a bus. -/
def describe : Shape → String
  | .wire => "wire"
  | .vector element size => element.describe ++ "[" ++ toString size ++ "]"
  | .record fields => "\x7b" ++ ", ".intercalate (describeFields fields) ++ "\x7d"

def describeFields : List (String × Shape) → List String
  | [] => []
  | (name, s) :: rest => (name ++ ": " ++ s.describe) :: describeFields rest

end

mutual

/-- Whether two shapes are the same up to the order of record fields. -/
def agrees : Shape → Shape → Bool
  | .wire, .wire => true
  | .vector e m, .vector f n => m == n && e.agrees f
  | .record fs, .record gs => fs.length == gs.length && fieldsAgree fs gs
  | _, _ => false

/-- Whether each field has an agreeing field of the same name in the other record. -/
def fieldsAgree : List (String × Shape) → List (String × Shape) → Bool
  | [], _ => true
  | (name, s) :: rest, gs =>
    (match gs.lookup name with
      | some t => s.agrees t
      | none => false) && fieldsAgree rest gs

end

instance : BEq Shape :=
  ⟨agrees⟩

/-- Whether two lists of shapes agree place by place. -/
def listAgrees : List Shape → List Shape → Bool
  | [], [] => true
  | s :: ss, t :: ts => s.agrees t && listAgrees ss ts
  | _, _ => false

end Shape

end NetlistCompiler
