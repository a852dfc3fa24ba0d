import NetlistCompiler.PortTree.Layout
import NetlistCompiler.Proofs.WireMatching

/-!
# Numbering of wires

Counting the wires of a shape stops at the largest number of 64 bits, which makes no difference to
the count below it. If the count fits in 32 bits, the layout gives the wires the numbers from zero
on, and whatever is taken out of the tree by accesses is again laid out, from some later number on.
-/

namespace NetlistCompiler

namespace Shape

lemma width_eq_getD (s : Shape) : s.width = s.checkedWidth?.getD maxWidth := by
  rw [width, checkedWidth?_eq]
  split
  · next h => exact min_eq_left h
  · next h => exact min_eq_right (Nat.le_of_not_le h)

end Shape

namespace PortTree

/-! ### Layout -/

/-- The step takes `count` numbers if there are so many left, and its result depends on the first
of them. -/
def Takes {α : Type} (m : Layout α) (count : Nat) (result : Nat → α) : Prop :=
  ∀ next ≤ Shape.maxWidth, m.run next =
    if next + count ≤ Shape.maxWidth then some (result next, next + count) else none

section

variable {α β : Type} {m : Layout α} {count : Nat} {result : Nat → α}

lemma takes_pure (a : α) : Takes (pure a) 0 fun _ => a := by
  intro next hnext
  rw [Nat.add_zero, if_pos hnext]
  rfl

lemma Takes.bind {f : α → Layout β} {count' : Nat} {result' : α → Nat → β}
    (hm : Takes m count result) (hf : ∀ a, Takes (f a) count' (result' a)) :
    Takes (m >>= f) (count + count') fun next => result' (result next) (next + count) := by
  intro next hnext
  rw [StateT.run_bind, hm next hnext]
  split
  · next h =>
    change (f (result next)).run (next + count) = _
    rw [hf _ _ h, Nat.add_assoc]
  · next h => exact (if_neg (by omega)).symm

lemma Takes.map (hm : Takes m count result) (f : α → β) :
    Takes (m >>= fun a => pure (f a)) count fun next => f (result next) :=
  hm.bind fun a => takes_pure (f a)

lemma takes_nextLeaf : Takes nextLeaf 1 fun next => next := by
  intro next _
  by_cases h : next + 1 ≤ Shape.maxWidth
  · have hlt : next < Shape.maxWidth := h
    simp [nextLeaf, guard, h, hlt]
  · have hlt : ¬next < Shape.maxWidth := h
    simp [nextLeaf, guard, h, hlt]

/-- Every round of a loop begins where the one before it has ended. -/
lemma Takes.mapM_const (hm : Takes m count result) (rounds : List β) :
    Takes (rounds.mapM fun _ => m) (count * rounds.length) fun next =>
      (List.range rounds.length).map fun i => result (next + i * count) := by
  induction rounds with
  | nil => exact takes_pure []
  | cons round rounds ih =>
    have hround := hm.bind fun a => ih.map fun as => a :: as
    rw [List.mapM_cons]
    convert hround using 2
    · rw [List.length_cons, Nat.mul_succ, Nat.add_comm]
    · next next =>
      rw [List.length_cons, List.range_succ_eq_map, List.map_cons, List.map_map, Nat.zero_mul]
      congr 1
      refine List.map_congr_left fun i _ => ?_
      rw [Function.comp_apply, Nat.succ_mul, Nat.add_assoc, Nat.add_comm count]

end

mutual

lemma takes_layOut : ∀ s : Shape, Takes (layOut s) s.wireCount (number s)
  | .wire => by
    have h := takes_nextLeaf.map wire
    simpa only [layOut, Shape.wireCount, number] using h
  | .record fields => by
    have h := (takes_layOutFields fields).map record
    simpa only [layOut, Shape.wireCount, number] using h
  | .vector element size => by
    have h := ((takes_layOut element).mapM_const (List.range size)).map (vector element)
    simpa only [layOut, Shape.wireCount, number, List.length_range] using h

lemma takes_layOutFields : ∀ fields : List (String × Shape),
    Takes (layOutFields fields) (Shape.fieldsWireCount fields) (numberFields fields)
  | [] => takes_pure []
  | (name, s) :: rest => by
    have h := (takes_layOut s).bind fun t => (takes_layOutFields rest).map ((name, t) :: ·)
    simpa only [layOutFields, Shape.fieldsWireCount, numberFields] using h

end

/-- The layout is the tree of the shape, as long as the counter does not run over. -/
lemma layOut?_eq (s : Shape) :
    layOut? s = if s.wireCount ≤ Shape.maxWidth then some (ofShape s) else none := by
  have h := takes_layOut s 0 (Nat.zero_le _)
  rw [Nat.zero_add] at h
  rw [layOut?, StateT.run'_eq, h]
  split <;> rfl

/-! ### Blocks of wires -/

/-- A tree laid out on some of the `count` numbers from `first` on. -/
def Block (first count : Nat) (u : PortTree) : Prop :=
  ∃ s start, u = number s start ∧ first ≤ start ∧ start + s.wireCount ≤ first + count

variable {s : Shape} {first : Nat} {t u : PortTree}

lemma block_member? {name : String} (h : (number s first).member? name = some u) :
    Block first s.wireCount u := by
  cases s with
  | wire => rw [number] at h; cases h
  | vector element size => rw [number] at h; cases h
  | record fields =>
    rw [number, member?] at h
    rw [Shape.wireCount]
    -- the fields before the one that is found take their numbers first
    induction fields generalizing first with
    | nil => rw [numberFields] at h; cases h
    | cons f rest ih =>
      obtain ⟨key, s⟩ := f
      rw [numberFields, List.lookup_cons] at h
      rw [Shape.fieldsWireCount]
      split at h
      · cases h
        exact ⟨s, first, rfl, le_rfl, by omega⟩
      · obtain ⟨s', start, rfl, hstart, hend⟩ := ih h
        exact ⟨s', start, rfl, by omega, by omega⟩

lemma block_item? {place : Nat} (h : (number s first).item? place = some u) :
    Block first s.wireCount u := by
  cases s with
  | wire => rw [number] at h; cases h
  | record fields => rw [number] at h; cases h
  | vector element size =>
    rw [number, item?, List.getElem?_map, Option.map_eq_some_iff] at h
    obtain ⟨i, hi, rfl⟩ := h
    obtain ⟨hplace, rfl⟩ := List.getElem?_eq_some_iff.mp hi
    rw [List.length_range] at hplace
    rw [List.getElem_range, Shape.wireCount]
    have hend : (place + 1) * element.wireCount ≤ element.wireCount * size := by
      rw [Nat.mul_comm]
      exact Nat.mul_le_mul_left _ hplace
    rw [Nat.succ_mul] at hend
    exact ⟨element, _, rfl, by omega, by omega⟩

/-- A slice is laid out like a shorter vector. -/
lemma slice?_number {element : Shape} {size a b : Nat}
    (h : (number (.vector element size) first).slice? a b = some u) :
    a ≤ b ∧ b < size ∧ u = number (.vector element (b + 1 - a)) (first + a * element.wireCount) := by
  rw [number, slice?, List.length_map, List.length_range] at h
  split at h
  · next hbounds =>
    cases h
    refine ⟨hbounds.1, hbounds.2, ?_⟩
    rw [number]
    congr 1
    apply List.ext_getElem
    · simp only [List.length_take, List.length_drop, List.length_map, List.length_range]
      omega
    · intro i _ _
      simp only [List.getElem_take, List.getElem_drop, List.getElem_map, List.getElem_range]
      rw [Nat.add_mul, Nat.add_assoc]
  · cases h

lemma block_slice? {a b : Nat} (h : (number s first).slice? a b = some u) :
    Block first s.wireCount u := by
  cases s with
  | wire => rw [number] at h; cases h
  | record fields => rw [number] at h; cases h
  | vector element size =>
    obtain ⟨hab, hb, rfl⟩ := slice?_number h
    have hend : a * element.wireCount + element.wireCount * (b + 1 - a) ≤
        element.wireCount * size := by
      rw [Nat.mul_comm a, ← Nat.mul_add]
      exact Nat.mul_le_mul_left _ (by omega)
    refine ⟨_, _, rfl, by omega, ?_⟩
    rw [Shape.wireCount, Shape.wireCount]
    omega

/-- Accesses lead from a laid out tree to one laid out within its numbers. -/
lemma Part.block (h : t.Part u) (ht : t = number s first) : Block first s.wireCount u := by
  have hstep : ∀ {v w : PortTree}, Block first s.wireCount v →
      (∀ s' start, v = number s' start → Block start s'.wireCount w) →
      Block first s.wireCount w := by
    intro v w hv hw
    obtain ⟨s', start, hv, hstart, hend⟩ := hv
    obtain ⟨s'', start', hw, hstart', hend'⟩ := hw s' start hv
    exact ⟨s'', start', hw, by omega, by omega⟩
  induction h with
  | whole => exact ⟨s, first, ht, le_rfl, le_rfl⟩
  | member _ hv ih => exact hstep ih fun _ _ hu => block_member? (hu ▸ hv)
  | item _ hv ih => exact hstep ih fun _ _ hu => block_item? (hu ▸ hv)
  | slice _ hv ih => exact hstep ih fun _ _ hu => block_slice? (hu ▸ hv)

/-- The full width is the number of wires, up to the largest number of 64 bits, and the width up to
the one of 32 bits. The checked width exists if and only if that number is less than `2 ^ 32`. Then
the layout exists, has the given shape and the wires `0, 1, ...` in order. Whatever accesses take
out of it has as its wires a run of these numbers, in order and as long as its shape is wide. -/
theorem layOut_numbers_wires (s : Shape) :
    (ofShape s).leaves.length = s.wireCount ∧
    s.fullWidth = min s.wireCount (2 ^ 64 - 1) ∧
    (∀ w, s.checkedWidth? = some w ↔ s.wireCount = w ∧ w < 2 ^ 32) ∧
    s.width = s.checkedWidth?.getD (2 ^ 32 - 1) ∧
    ∀ w, s.checkedWidth? = some w → ∃ t, layOut? s = some t ∧ t.shape = s ∧
      t.leaves = List.range w ∧
      ∀ u, t.Part u → ∃ start, u.leaves = List.range' start u.shape.width ∧
        start + u.shape.width ≤ w := by
  have hlimit : Shape.maxWidth = 2 ^ 32 - 1 := rfl
  have hchecked : ∀ w, s.checkedWidth? = some w ↔ s.wireCount = w ∧ w < 2 ^ 32 := by
    intro w
    rw [Shape.checkedWidth?_eq, Option.ite_none_right_eq_some, Option.some.injEq]
    omega
  refine ⟨?_, Shape.fullWidth_eq s, hchecked, s.width_eq_getD, ?_⟩
  · rw [ofShape, leaves_number, List.length_range']
  · intro w hw
    obtain ⟨rfl, hlt⟩ := (hchecked w).mp hw
    refine ⟨ofShape s, ?_, shape_number s 0, ?_, ?_⟩
    · rw [layOut?_eq, if_pos (by omega)]
    · rw [ofShape, leaves_number, List.range_eq_range']
    · intro u hu
      obtain ⟨s', start, rfl, -, hend⟩ := hu.block rfl
      have hwidth : s'.width = s'.wireCount := min_eq_left (by omega)
      rw [shape_number, hwidth, leaves_number]
      exact ⟨start, rfl, by omega⟩

/-- The last two of three lanes, behind a wire and a vector without items. -/
theorem layOut_numbers_wires_lanes :
    let lane := Shape.record [("data", .bus 2), ("last", .wire)]
    let port := Shape.record
      [("tag", .wire), ("spare", .vector (.bus 3) 0), ("lanes", .vector lane 3)]
    let lanes := number (.vector lane 2) 4
    port.checkedWidth? = some 10 ∧ ∃ t, layOut? port = some t ∧ t.shape = port ∧
      t.leaves = List.range 10 ∧ t.Part lanes ∧
      ∃ start, lanes.leaves = List.range' start 6 ∧ start + 6 ≤ 10 := by
  intro lane port lanes
  have hport : port.checkedWidth? = some 10 := rfl
  obtain ⟨-, -, -, -, hlayout⟩ := layOut_numbers_wires port
  obtain ⟨t, ht, hshape, hleaves, hparts⟩ := hlayout 10 hport
  have htree : t = ofShape port := by
    rw [layOut?_eq, if_pos (by decide)] at ht
    exact (Option.some.inj ht).symm
  have hmember : t.member? "lanes" = some (number (.vector lane 3) 1) := by rw [htree]; rfl
  have hslice : (number (.vector lane 3) 1).slice? 1 2 = some lanes := rfl
  have hpart : t.Part lanes := .slice (.member .whole hmember) hslice
  exact ⟨hport, t, ht, hshape, hleaves, hpart, hparts lanes hpart⟩

end PortTree

end NetlistCompiler
