import NetlistCompiler.Proofs.KnownNames
import NetlistCompiler.Proofs.Likeness

/-!
# The widths of primitive ports

An invocation of a primitive is accepted only with sizes of 32 bits, and a selection only if a
vector of all its elements has a width of 32 bits. That bounds every port but one: the conditions of
a priority selection hold an extra wire for each element, so they can be twice as wide as what has
been checked.
-/

namespace NetlistCompiler

namespace Shape

lemma isSome_checkedWidth?_iff {s : Shape} :
    s.checkedWidth?.isSome = true ↔ s.wireCount ≤ maxWidth := by
  rw [checkedWidth?_eq]
  split <;> simp_all

lemma checkedWidth?_eq_none_iff {s : Shape} :
    s.checkedWidth? = none ↔ ¬s.wireCount ≤ maxWidth := by
  rw [← isSome_checkedWidth?_iff, Bool.not_eq_true, Option.isSome_eq_false_iff,
    Option.isNone_iff_eq_none]

lemma wireCount_bus (size : Nat) : (bus size).wireCount = size := by
  simp [bus, wireCount]

lemma wireCount_vector (element : Shape) (size : Nat) :
    (vector element size).wireCount = element.wireCount * size := by
  rw [wireCount]

end Shape

/-- A selector for a 32-bit number of items needs at most 32 wires. -/
lemma selectorWidth_le {count : Nat} (h : count ≤ Shape.maxWidth) : selectorWidth count ≤ 32 := by
  unfold selectorWidth
  split
  · decide
  · next hcount =>
    have hlog : (count - 1).log2 < 32 := by
      apply (Nat.log2_lt (by omega)).mpr
      unfold Shape.maxWidth maxNat32 at h
      omega
    omega

lemma Port.fits_signal {name : String} {shape : Shape} :
    (signal name shape).Fits ↔ shape.wireCount ≤ Shape.maxWidth :=
  Iff.rfl

namespace Primitive

/-! ### Accepted sizes -/

/-- What an invocation guarantees about the sizes of the primitive that it gives. -/
inductive Sized : Primitive → Prop where
  | binary (op : PrimitiveOp) {size : Nat} (hsize : size ≤ Shape.maxWidth) : Sized (.binary op size)
  | logical (op : PrimitiveOp) : Sized (.logical op)
  | not : Sized .not
  | bitwiseNot {size : Nat} (hsize : size ≤ Shape.maxWidth) : Sized (.bitwiseNot size)
  | register {shape : Shape} (hshape : shape.wireCount ≤ Shape.maxWidth) : Sized (.register shape)
  | literal {size : Nat} (hsize : size ≤ Shape.maxWidth) (value : Int64) :
    Sized (.literal size value)
  | selection {op : PrimitiveOp} {element : Shape} {count : Nat}
    (hop : op = .mux ∨ op = .demux ∨ op = .priority) (hcount : count ≤ Shape.maxWidth)
    (helement : element.wireCount ≤ Shape.maxWidth)
    (hall : element.wireCount * count ≤ Shape.maxWidth) : Sized (.selection op element count)

lemma le_of_sizeAt {op : PrimitiveOp} {parameters : List Argument} {index size : Nat}
    (h : sizeAt op parameters index = .ok size) : size ≤ Shape.maxWidth := by
  obtain ⟨value, -, hvalue⟩ := exists_of_bind_eq_ok h
  split at hvalue
  · next hrange =>
    cases hvalue
    exact Int.toNat_le.mpr hrange.2
  · cases hvalue

lemma wireCount_headD_le {ss : List Shape} (h : ∀ s ∈ ss, s.wireCount ≤ Shape.maxWidth) :
    (ss.headD .wire).wireCount ≤ Shape.maxWidth := by
  cases ss with
  | nil => decide
  | cons s _ => exact h s (by simp)

lemma sized_of_ofInvocation {op : PrimitiveOp} {i : Invocation} {p : Primitive}
    (hi : ∀ s ∈ i.interfaces, s.wireCount ≤ Shape.maxWidth) (h : ofInvocation op i = .ok p) :
    p.Sized := by
  have helement := wireCount_headD_le hi
  unfold ofInvocation at h
  dsimp only at h
  split at h
  · cases h
  · cases op
    case register =>
      cases h
      exact .register helement
    case mux | demux | priority =>
      obtain ⟨count, hcount, hrest⟩ := exists_of_bind_eq_ok h
      split at hrest
      · cases hrest
      · next hfits =>
        cases hrest
        rw [Bool.not_eq_true, Option.isNone_eq_false_iff, Shape.isSome_checkedWidth?_iff] at hfits
        exact .selection (by simp) (le_of_sizeAt hcount) helement
          (Shape.wireCount_vector _ _ ▸ hfits)
    case and | or =>
      cases h
      exact .logical _
    case not =>
      cases h
      exact .not
    case literal =>
      obtain ⟨size, hsize, hrest⟩ := exists_of_bind_eq_ok h
      obtain ⟨value, -, hend⟩ := exists_of_bind_eq_ok hrest
      cases hend
      exact .literal (le_of_sizeAt hsize) value
    case bitwiseNot =>
      obtain ⟨size, hsize, hrest⟩ := exists_of_bind_eq_ok h
      cases hrest
      exact .bitwiseNot (le_of_sizeAt hsize)
    all_goals
      obtain ⟨size, hsize, hrest⟩ := exists_of_bind_eq_ok h
      cases hrest
      exact .binary _ (le_of_sizeAt hsize)

/-! ### Ports -/

lemma wireCount_conditions (element : Shape) (count : Nat) :
    (Shape.vector (priorityEntry element) count).wireCount = (1 + element.wireCount) * count := by
  simp [priorityEntry, Shape.wireCount, Shape.fieldsWireCount]

lemma wireCount_result {op : PrimitiveOp} {size : Nat} (hsize : size ≤ Shape.maxWidth) :
    (if op.isComparison then Shape.wire else .bus size).wireCount ≤ Shape.maxWidth := by
  split
  · decide
  · rwa [Shape.wireCount_bus]

/-- Every port of a primitive with accepted sizes fits, except perhaps the conditions of a priority
selection. -/
lemma Sized.fits_or_conditions {p : Primitive} (hp : p.Sized) :
    ∀ port ∈ p.signature.inputs ++ p.signature.outputs, port.Fits ∨
      ∃ element count, p = .selection .priority element count ∧
        port = .signal "conditions" (.vector (priorityEntry element) count) := by
  have hwire : Shape.wire.wireCount ≤ Shape.maxWidth := by decide
  cases hp with
  | binary op hsize =>
    simp [signature, Port.fits_signal, Shape.wireCount_bus, hsize, wireCount_result hsize]
  | logical op => simp [signature, Port.fits_signal, hwire]
  | not => simp [signature, Port.fits_signal, hwire]
  | bitwiseNot hsize => simp [signature, Port.fits_signal, Shape.wireCount_bus, hsize]
  | register hshape => simp [signature, Port.fits_signal, hshape]
  | literal hsize value => simp [signature, Port.fits_signal, Shape.wireCount_bus, hsize]
  | selection hop hcount helement hall =>
    have hselector := (selectorWidth_le hcount).trans (by decide : 32 ≤ Shape.maxWidth)
    rw [← Shape.wireCount_vector] at hall
    rcases hop with rfl | rfl | rfl
    · simp [signature, Port.fits_signal, Shape.wireCount_bus, hselector, helement, hall]
    · simp [signature, Port.fits_signal, Shape.wireCount_bus, hselector, helement, hall]
    · simp [signature, Port.fits_signal, helement]

lemma eq_conditions {element : Shape} {count : Nat} {port : Port}
    (hport : port ∈ (selection .priority element count).signature.inputs ++
      (selection .priority element count).signature.outputs) (hname : port.name = "conditions") :
    port = .signal "conditions" (.vector (priorityEntry element) count) := by
  simp only [signature, List.cons_append, List.nil_append, List.mem_cons, List.not_mem_nil,
    or_false] at hport
  rcases hport with rfl | rfl | rfl
  · rfl
  · simp [Port.signal] at hname
  · simp [Port.signal] at hname

/-- A priority selection whose conditions have one wire more than fits. -/
def widestPriority : Invocation :=
  ⟨"priority", [.wire], [.integer 2147483648]⟩

/-- If the interface values of an accepted invocation fit in 32 bits, so does every port of the
primitive, with one exception: the conditions of a priority selection, if a wire for each element
and the elements themselves are too many together. -/
theorem port_fits_unless_conditions {op : PrimitiveOp} {i : Invocation} {p : Primitive}
    (hi : ∀ s ∈ i.interfaces, s.checkedWidth?.isSome = true) (h : ofInvocation op i = .ok p) :
    ∀ port ∈ p.signature.inputs ++ p.signature.outputs,
      port.shape.checkedWidth? = none ↔
        ∃ element count, p = .selection .priority element count ∧ port.name = "conditions" ∧
          Shape.maxWidth < (1 + element.wireCount) * count := by
  have hp : p.Sized :=
    sized_of_ofInvocation (fun s hs => Shape.isSome_checkedWidth?_iff.mp (hi s hs)) h
  intro port hport
  rw [Shape.checkedWidth?_eq_none_iff]
  constructor
  · intro hwide
    rcases hp.fits_or_conditions port hport with hfits | ⟨element, count, rfl, rfl⟩
    · exact absurd hfits hwide
    · refine ⟨element, count, rfl, rfl, ?_⟩
      rw [← wireCount_conditions]
      exact not_le.mp hwide
  · rintro ⟨element, count, rfl, hname, hwide⟩
    rw [eq_conditions hport hname]
    exact not_le.mpr (wireCount_conditions element count ▸ hwide)

theorem port_fits_unless_conditions_mux :
    (∀ s ∈ (⟨"mux", [.bus 65537], [.integer 65535]⟩ : Invocation).interfaces,
      s.checkedWidth?.isSome = true) ∧
    ofInvocation .mux ⟨"mux", [.bus 65537], [.integer 65535]⟩ =
      .ok (.selection .mux (.bus 65537) 65535) ∧
    ∀ port ∈ (selection .mux (.bus 65537) 65535).signature.inputs ++
      (selection .mux (.bus 65537) 65535).signature.outputs, port.shape.checkedWidth? ≠ none := by
  have hi : ∀ s ∈ (⟨"mux", [.bus 65537], [.integer 65535]⟩ : Invocation).interfaces,
      s.checkedWidth?.isSome = true := by
    simp only [List.mem_singleton, forall_eq]
    decide
  have h : ofInvocation .mux ⟨"mux", [.bus 65537], [.integer 65535]⟩ =
      .ok (.selection .mux (.bus 65537) 65535) := rfl
  refine ⟨hi, h, fun port hport hnone => ?_⟩
  obtain ⟨element, count, hpriority, -⟩ := (port_fits_unless_conditions hi h port hport).mp hnone
  cases hpriority

/-- The invocation is accepted, and its conditions do not fit. -/
theorem conditions_too_wide :
    (∀ s ∈ widestPriority.interfaces, s.checkedWidth?.isSome = true) ∧
    ofInvocation .priority widestPriority = .ok (.selection .priority .wire 2147483648) ∧
    ∃ port ∈ (selection .priority .wire 2147483648).signature.inputs,
      port.shape.checkedWidth? = none := by
  refine ⟨?_, rfl, _, List.mem_cons_self, by decide⟩
  simp only [widestPriority, List.mem_singleton, forall_eq]
  decide

end Primitive

end NetlistCompiler
