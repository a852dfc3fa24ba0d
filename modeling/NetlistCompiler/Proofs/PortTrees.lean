import NetlistCompiler.PortTree
import NetlistCompiler.Proofs.Agreement

/-!
# Wires of port trees

The wires of a port are numbered from zero in order, and access and pairing stay within them.
-/

namespace NetlistCompiler

lemma sublist_flatMap_of_mem {α β : Type} {l : List α} {a : α} (h : a ∈ l) (f : α → List β) :
    (f a).Sublist (l.flatMap f) := by
  have hsublist := (List.singleton_sublist.mpr h).flatMap f
  rwa [List.flatMap_singleton] at hsublist

namespace PortTree

lemma itemLeaves_eq_flatMap (ts : List PortTree) : itemLeaves ts = ts.flatMap leaves := by
  induction ts with
  | nil => rfl
  | cons t ts ih => rw [itemLeaves, List.flatMap_cons, ih]

lemma fieldLeaves_eq_flatMap (fs : List (String × PortTree)) :
    fieldLeaves fs = fs.flatMap fun f => f.2.leaves := by
  induction fs with
  | nil => rfl
  | cons f fs ih => rw [fieldLeaves, List.flatMap_cons, ih]

mutual

/-- The wires of a numbered shape have the numbers from the first one on, in order. -/
lemma leaves_number : ∀ (s : Shape) (first : Nat),
    (number s first).leaves = List.range' first s.wireCount
  | .wire, first => by rw [number, leaves, Shape.wireCount, List.range'_one]
  | .record fields, first => by
    rw [number, leaves, Shape.wireCount, fieldLeaves_numberFields fields first]
  | .vector element size, first => by
    have hitem := leaves_number element
    rw [number, leaves, Shape.wireCount, itemLeaves_eq_flatMap]
    -- the last item begins where the ones before it end
    induction size with
    | zero => rfl
    | succ size ih =>
      have hstart : first + size * element.wireCount = first + element.wireCount * size := by
        rw [Nat.mul_comm]
      rw [List.range_succ, List.map_append, List.flatMap_append, ih, List.map_singleton,
        List.flatMap_singleton, hitem, hstart, List.range'_append_1, Nat.mul_succ]

lemma fieldLeaves_numberFields : ∀ (fields : List (String × Shape)) (first : Nat),
    fieldLeaves (numberFields fields first) = List.range' first (Shape.fieldsWireCount fields)
  | [], first => rfl
  | (name, s) :: rest, first => by
    have hfield := leaves_number s first
    have hrest := fieldLeaves_numberFields rest (first + s.wireCount)
    rw [numberFields, fieldLeaves, hfield, hrest, Shape.fieldsWireCount, List.range'_append_1]

end

lemma mem_leaves_number {s : Shape} {first leaf : Nat} :
    leaf ∈ (number s first).leaves ↔ first ≤ leaf ∧ leaf < first + s.wireCount := by
  rw [leaves_number, List.mem_range'_1]

lemma nodup_leaves_number (s : Shape) (first : Nat) : (number s first).leaves.Nodup := by
  rw [leaves_number]
  exact List.nodup_range'

lemma sublist_leaves_member? {t u : PortTree} {name : String} (h : t.member? name = some u) :
    u.leaves.Sublist t.leaves := by
  cases t with
  | record fields =>
    have hmem : (name, u) ∈ fields := mem_of_lookup_eq_some h
    rw [leaves, fieldLeaves_eq_flatMap]
    exact sublist_flatMap_of_mem hmem fun f => f.2.leaves
  | wire leaf => cases h
  | vector element items => cases h

lemma sublist_leaves_item? {t u : PortTree} {index : Nat} (h : t.item? index = some u) :
    u.leaves.Sublist t.leaves := by
  cases t with
  | vector element items =>
    have hmem : u ∈ items := List.mem_of_getElem? h
    rw [leaves, itemLeaves_eq_flatMap]
    exact sublist_flatMap_of_mem hmem _
  | wire leaf => cases h
  | record fields => cases h

lemma sublist_leaves_slice? {t u : PortTree} {first last : Nat} (h : t.slice? first last = some u) :
    u.leaves.Sublist t.leaves := by
  cases t with
  | vector element items =>
    rw [slice?] at h
    split at h
    · cases h
      have hitems := (List.take_sublist (last + 1 - first) _).trans (List.drop_sublist first items)
      rw [leaves, leaves, itemLeaves_eq_flatMap, itemLeaves_eq_flatMap]
      exact hitems.flatMap _
    · cases h
  | wire leaf => cases h
  | record fields => cases h

/-! ### Pairing -/

section

variable {pairs : List (Nat × Nat)}

lemma pairLeaves?_record {fs gs : List (String × PortTree)} :
    (record fs).pairLeaves? (record gs) = some pairs ↔
      fs.length = gs.length ∧ pairFields? fs gs = some pairs := by
  rw [pairLeaves?]
  split <;> simp [*]

lemma pairLeaves?_vector {e f : Shape} {ts us : List PortTree} :
    (vector e ts).pairLeaves? (vector f us) = some pairs ↔
      (e.agrees f = true ∧ ts.length = us.length) ∧ pairItems? ts us = some pairs := by
  rw [pairLeaves?]
  split <;> simp [*]

lemma pairFields?_cons {name : String} {t : PortTree} {fs gs : List (String × PortTree)} :
    pairFields? ((name, t) :: fs) gs = some pairs ↔
      ∃ u ps qs, gs.lookup name = some u ∧ t.pairLeaves? u = some ps ∧
        pairFields? fs gs = some qs ∧ pairs = ps ++ qs := by
  rw [pairFields?]
  constructor
  · intro h
    split at h
    · cases h
    · next u hu =>
      split at h
      · next ps qs hps hqs =>
        cases h
        exact ⟨u, ps, qs, hu, hps, hqs, rfl⟩
      · cases h
  · rintro ⟨u, ps, qs, hu, hps, hqs, rfl⟩
    simp only [hu, hps, hqs]

lemma pairItems?_cons {t u : PortTree} {ts us : List PortTree} :
    pairItems? (t :: ts) (u :: us) = some pairs ↔
      ∃ ps qs, t.pairLeaves? u = some ps ∧ pairItems? ts us = some qs ∧ pairs = ps ++ qs := by
  rw [pairItems?]
  cases t.pairLeaves? u <;> cases pairItems? ts us <;> simp [eq_comm]

end

mutual

/-- Only wires of the two trees are paired. -/
lemma mem_leaves_of_pairLeaves? : ∀ (t u : PortTree) {pairs : List (Nat × Nat)},
    t.pairLeaves? u = some pairs → ∀ x ∈ pairs, x.1 ∈ t.leaves ∧ x.2 ∈ u.leaves
  | .wire a, .wire b, pairs, h, x, hx => by
    rw [pairLeaves?] at h
    cases h
    obtain rfl := List.mem_singleton.mp hx
    simp [leaves]
  | .record fs, .record gs, pairs, h, x, hx => by
    have hpairs := (pairLeaves?_record.mp h).2
    rw [leaves, leaves]
    exact mem_leaves_of_pairFields? fs gs hpairs x hx
  | .vector e ts, .vector f us, pairs, h, x, hx => by
    have hpairs := (pairLeaves?_vector.mp h).2
    rw [leaves, leaves]
    exact mem_leaves_of_pairItems? ts us hpairs x hx
  | .wire _, .record _, pairs, h, x, hx => by simp [pairLeaves?] at h
  | .wire _, .vector _ _, pairs, h, x, hx => by simp [pairLeaves?] at h
  | .record _, .wire _, pairs, h, x, hx => by simp [pairLeaves?] at h
  | .record _, .vector _ _, pairs, h, x, hx => by simp [pairLeaves?] at h
  | .vector _ _, .wire _, pairs, h, x, hx => by simp [pairLeaves?] at h
  | .vector _ _, .record _, pairs, h, x, hx => by simp [pairLeaves?] at h

lemma mem_leaves_of_pairFields? : ∀ (fs gs : List (String × PortTree)) {pairs : List (Nat × Nat)},
    pairFields? fs gs = some pairs → ∀ x ∈ pairs, x.1 ∈ fieldLeaves fs ∧ x.2 ∈ fieldLeaves gs
  | [], gs, pairs, h, x, hx => by
    rw [pairFields?] at h
    cases h
    simp at hx
  | (name, t) :: rest, gs, pairs, h, x, hx => by
    obtain ⟨u, ps, qs, hu, hps, hqs, rfl⟩ := pairFields?_cons.mp h
    rw [fieldLeaves, List.mem_append]
    rcases List.mem_append.mp hx with hx | hx
    · obtain ⟨hleft, hright⟩ := mem_leaves_of_pairLeaves? t u hps x hx
      refine ⟨.inl hleft, ?_⟩
      rw [fieldLeaves_eq_flatMap, List.mem_flatMap]
      exact ⟨(name, u), mem_of_lookup_eq_some hu, hright⟩
    · obtain ⟨hleft, hright⟩ := mem_leaves_of_pairFields? rest gs hqs x hx
      exact ⟨.inr hleft, hright⟩

lemma mem_leaves_of_pairItems? : ∀ (ts us : List PortTree) {pairs : List (Nat × Nat)},
    pairItems? ts us = some pairs → ∀ x ∈ pairs, x.1 ∈ itemLeaves ts ∧ x.2 ∈ itemLeaves us
  | [], us, pairs, h, x, hx => by
    rw [pairItems?] at h
    · cases h
      simp at hx
    · simp
  | _ :: _, [], pairs, h, x, hx => by
    rw [pairItems?] at h
    · cases h
      simp at hx
    · simp
  | t :: ts, u :: us, pairs, h, x, hx => by
    obtain ⟨ps, qs, hps, hqs, rfl⟩ := pairItems?_cons.mp h
    rw [itemLeaves, itemLeaves, List.mem_append, List.mem_append]
    rcases List.mem_append.mp hx with hx | hx
    · obtain ⟨hleft, hright⟩ := mem_leaves_of_pairLeaves? t u hps x hx
      exact ⟨.inl hleft, .inl hright⟩
    · obtain ⟨hleft, hright⟩ := mem_leaves_of_pairItems? ts us hqs x hx
      exact ⟨.inr hleft, .inr hright⟩

end

end PortTree

end NetlistCompiler
