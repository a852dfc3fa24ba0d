import NetlistCompiler.Proofs.AccessPaths
import NetlistCompiler.Proofs.Traversals

/-!
# Matching of wires

Ports are connected wire by wire, and a part of a port, such as a slice of one of its members, is
connected like a whole one. The wires of two such parts can be paired if and only if the shapes
agree. Then every wire of either side is in one pair, the pairs have the order of the first side,
and the two wires of a pair have the same access path. Fields are found by name here and items by
place, while the items of a vector are compared by the one shape that the vector keeps for them.
-/

namespace NetlistCompiler

namespace PortTree

/-! ### Parts of ports -/

/-- What a sequence of accesses takes out of a tree. -/
inductive Part (t : PortTree) : PortTree → Prop
  | whole : Part t t
  | member {u v : PortTree} {name : String} (hu : Part t u) (hv : u.member? name = some v) :
      Part t v
  | item {u v : PortTree} {place : Nat} (hu : Part t u) (hv : u.item? place = some v) : Part t v
  | slice {u v : PortTree} {first last : Nat} (hu : Part t u) (hv : u.slice? first last = some v) :
      Part t v

/-- Records have distinct field names, and the items of a vector have the shape that it keeps. -/
inductive Formed : PortTree → Prop
  | wire (leaf : Nat) : Formed (.wire leaf)
  | record {fields : List (String × PortTree)} (names : (fields.map Prod.fst).Nodup)
      (formed : ∀ f ∈ fields, Formed f.2) : Formed (.record fields)
  | vector {element : Shape} {items : List PortTree} (distinct : element.Distinct)
      (shapes : ∀ t ∈ items, t.shape = element) (formed : ∀ t ∈ items, Formed t) :
      Formed (.vector element items)

lemma fieldShapes_eq_map (fields : List (String × PortTree)) :
    fieldShapes fields = fields.map fun f => (f.1, f.2.shape) := by
  induction fields with
  | nil => rfl
  | cons f rest ih => rw [fieldShapes, List.map_cons, ih]

mutual

lemma shape_number : ∀ (s : Shape) (first : Nat), (number s first).shape = s
  | .wire, first => rfl
  | .record fields, first => by rw [number, shape, fieldShapes_numberFields fields first]
  | .vector element size, first => by rw [number, shape, List.length_map, List.length_range]

lemma fieldShapes_numberFields : ∀ (fields : List (String × Shape)) (first : Nat),
    fieldShapes (numberFields fields first) = fields
  | [], first => rfl
  | (name, s) :: rest, first => by
    rw [numberFields, fieldShapes, shape_number s first, fieldShapes_numberFields rest]

end

lemma formed_number {s : Shape} (hs : s.Distinct) (first : Nat) : (number s first).Formed := by
  induction s using Shape.induction generalizing first with
  | wire => exact .wire first
  | vector element size ih =>
    have hitem : ∀ t ∈ (List.range size).map
        fun i => number element (first + i * element.wireCount),
        ∃ start, t = number element start := by
      intro t ht
      obtain ⟨i, -, rfl⟩ := List.mem_map.mp ht
      exact ⟨_, rfl⟩
    rw [number]
    refine .vector hs ?_ ?_
    · intro t ht
      obtain ⟨start, rfl⟩ := hitem t ht
      exact shape_number element start
    · intro t ht
      obtain ⟨start, rfl⟩ := hitem t ht
      exact ih hs start
  | record fields ih =>
    obtain ⟨hnames, hfields⟩ := Shape.distinct_record.mp hs
    have hnames' : ((numberFields fields first).map Prod.fst).Nodup := by
      rwa [map_fst_numberFields]
    rw [number]
    refine .record hnames' ?_
    intro f hf
    obtain ⟨s, start, hmem, heq⟩ := lookup_numberFields (lookup_eq_some_of_mem hnames' hf)
    rw [heq]
    exact ih _ hmem (hfields _ hmem) start

section

variable {t u : PortTree}

lemma Formed.member? (h : t.Formed) {name : String} (hu : t.member? name = some u) : u.Formed := by
  cases h with
  | wire _ => cases hu
  | vector _ _ _ => cases hu
  | record _ formed => exact formed _ (mem_of_lookup_eq_some hu)

lemma Formed.item? (h : t.Formed) {place : Nat} (hu : t.item? place = some u) : u.Formed := by
  cases h with
  | wire _ => cases hu
  | record _ _ => cases hu
  | vector _ _ formed => exact formed _ (List.mem_of_getElem? hu)

lemma Formed.slice? (h : t.Formed) {first last : Nat} (hu : t.slice? first last = some u) :
    u.Formed := by
  cases h with
  | wire _ => cases hu
  | record _ _ => cases hu
  | @vector element items distinct shapes formed =>
    have hsubset : (items.drop first).take (last + 1 - first) ⊆ items :=
      fun _ ht => List.mem_of_mem_drop (List.mem_of_mem_take ht)
    rw [PortTree.slice?] at hu
    split at hu
    · cases hu
      exact .vector distinct (fun v hv => shapes v (hsubset hv)) fun v hv => formed v (hsubset hv)
    · cases hu

/-- What one access keeps, all accesses keep. -/
lemma Part.formed (h : t.Part u) (ht : t.Formed) : u.Formed := by
  induction h with
  | whole => exact ht
  | member _ hv ih => exact ih.member? hv
  | item _ hv ih => exact ih.item? hv
  | slice _ hv ih => exact ih.slice? hv

lemma Part.sublist_leaves (h : t.Part u) : u.leaves.Sublist t.leaves := by
  induction h with
  | whole => exact List.Sublist.refl _
  | member _ hv ih => exact (sublist_leaves_member? hv).trans ih
  | item _ hv ih => exact (sublist_leaves_item? hv).trans ih
  | slice _ hv ih => exact (sublist_leaves_slice? hv).trans ih

lemma Formed.distinct_shape (h : t.Formed) : t.shape.Distinct := by
  induction h with
  | wire _ => trivial
  | vector distinct _ _ _ => exact distinct
  | @record fields names _ ih =>
    rw [shape, fieldShapes_eq_map, Shape.distinct_record, List.map_map]
    refine ⟨names, ?_⟩
    intro f hf
    obtain ⟨g, hg, rfl⟩ := List.mem_map.mp hf
    exact ih g hg

end

/-! ### When wires can be paired -/

lemma isSome_pairFields?_iff {fs gs : List (String × PortTree)} :
    (pairFields? fs gs).isSome ↔
      ∀ f ∈ fs, ∃ u, gs.lookup f.1 = some u ∧ (f.2.pairLeaves? u).isSome := by
  induction fs with
  | nil => simp [pairFields?]
  | cons f fs ih =>
    simp only [Option.isSome_iff_exists] at ih ⊢
    rw [List.forall_mem_cons, ← ih]
    constructor
    · rintro ⟨pairs, h⟩
      obtain ⟨u, ps, qs, hu, hps, hqs, -⟩ := pairFields?_cons.mp h
      exact ⟨⟨u, hu, ps, hps⟩, qs, hqs⟩
    · rintro ⟨⟨u, hu, ps, hps⟩, qs, hqs⟩
      exact ⟨ps ++ qs, pairFields?_cons.mpr ⟨u, ps, qs, hu, hps, hqs, rfl⟩⟩

lemma isSome_pairItems?_of_forall {ts us : List PortTree}
    (h : ∀ t ∈ ts, ∀ u ∈ us, (t.pairLeaves? u).isSome) : (pairItems? ts us).isSome := by
  induction ts generalizing us with
  | nil => simp [pairItems?]
  | cons t ts ih =>
    cases us with
    | nil => simp [pairItems?]
    | cons u us =>
      rw [List.forall_mem_cons] at h
      have hhead := h.1 u (List.mem_cons_self ..)
      have hrest := ih fun t' ht' u' hu' => h.2 t' ht' u' (List.mem_cons_of_mem _ hu')
      obtain ⟨ps, hps⟩ := Option.isSome_iff_exists.mp hhead
      obtain ⟨qs, hqs⟩ := Option.isSome_iff_exists.mp hrest
      exact Option.isSome_iff_exists.mpr ⟨ps ++ qs, pairItems?_cons.mpr ⟨ps, qs, hps, hqs, rfl⟩⟩

/-- The wires of two trees can be paired if and only if the shapes agree. -/
lemma isSome_pairLeaves?_iff {t u : PortTree} (ht : t.Formed) (hu : u.Formed) :
    (t.pairLeaves? u).isSome ↔ t.shape.agrees u.shape = true := by
  induction ht generalizing u with
  | wire a => cases u <;> simp [pairLeaves?, shape, Shape.agrees]
  | @record fs _ _ ih =>
    cases hu with
    | wire b => simp [pairLeaves?, shape, Shape.agrees]
    | vector _ _ _ => simp [pairLeaves?, shape, Shape.agrees]
    | @record gs _ formed' =>
      have hlookup (name : String) :
          (fieldShapes gs).lookup name = (gs.lookup name).map shape := by
        rw [fieldShapes_eq_map, lookup_map_snd]
      have hfield : ∀ f ∈ fs, (∃ u, gs.lookup f.1 = some u ∧ (f.2.pairLeaves? u).isSome) ↔
          ∃ s, (fieldShapes gs).lookup f.1 = some s ∧ f.2.shape.agrees s = true := by
        intro f hf
        rw [hlookup]
        cases hlook : gs.lookup f.1 with
        | none => simp
        | some u => simp [ih f hf (formed' _ (mem_of_lookup_eq_some hlook))]
      have hfields : (pairFields? fs gs).isSome ↔
          Shape.fieldsAgree (fieldShapes fs) (fieldShapes gs) = true := by
        rw [isSome_pairFields?_iff, Shape.fieldsAgree_iff, fieldShapes_eq_map fs,
          List.forall_mem_map]
        exact forall₂_congr hfield
      have hlength : (fieldShapes fs).length = (fieldShapes gs).length ↔ fs.length = gs.length := by
        rw [fieldShapes_eq_map, fieldShapes_eq_map, List.length_map, List.length_map]
      rw [pairLeaves?, shape, shape, Shape.agrees, Bool.and_eq_true, beq_iff_eq, hlength, ← hfields]
      split <;> simp [*]
  | @vector e ts _ shapes _ ih =>
    cases hu with
    | wire b => simp [pairLeaves?, shape, Shape.agrees]
    | record _ _ => simp [pairLeaves?, shape, Shape.agrees]
    | @vector f us _ shapes' formed' =>
      -- every item has the shape that its vector keeps, so one comparison decides about all
      have hitems (hagree : e.agrees f = true) : (pairItems? ts us).isSome := by
        apply isSome_pairItems?_of_forall
        intro t ht u hu
        rw [ih t ht (formed' u hu), shapes t ht, shapes' u hu]
        exact hagree
      rw [pairLeaves?, shape, shape, Shape.agrees, Bool.and_eq_true, beq_iff_eq]
      split
      · next hagree => simp [hagree.1, hagree.2, hitems hagree.1]
      · next hagree => simpa [and_comm] using hagree

/-! ### What is paired -/

/-- The pairs list the wires of both trees, those of the first one in order, and the two wires of a
pair have the same path. -/
structure Matches (t u : PortTree) (pairs : List (Nat × Nat)) : Prop where
  left : pairs.map Prod.fst = t.leaves
  right : (pairs.map Prod.snd).Perm u.leaves
  paths : ∀ x ∈ pairs, ∃ path, t.at? path = some (.wire x.1) ∧ u.at? path = some (.wire x.2)

/-- The second components come from a selection of the fields by name. -/
lemma exists_selection_of_pairFields? {fs gs : List (String × PortTree)} {pairs : List (Nat × Nat)}
    (h : pairFields? fs gs = some pairs)
    (hfields : ∀ f ∈ fs, ∀ u ps, gs.lookup f.1 = some u → f.2.pairLeaves? u = some ps →
      f.2.Matches u ps) :
    ∃ hs, hs ⊆ gs ∧ hs.map Prod.fst = fs.map Prod.fst ∧ pairs.map Prod.fst = fieldLeaves fs ∧
      (pairs.map Prod.snd).Perm (fieldLeaves hs) ∧
      ∀ x ∈ pairs, ∃ f ∈ fs, ∃ u path, gs.lookup f.1 = some u ∧
        f.2.at? path = some (.wire x.1) ∧ u.at? path = some (.wire x.2) := by
  induction fs generalizing pairs with
  | nil =>
    cases h
    exact ⟨[], List.nil_subset _, rfl, rfl, .refl _, by simp⟩
  | cons f fs ih =>
    obtain ⟨u, ps, qs, hu, hps, hqs, rfl⟩ := pairFields?_cons.mp h
    rw [List.forall_mem_cons] at hfields
    have hhead := hfields.1 u ps hu hps
    obtain ⟨hs, hsubset, hnames, hleft, hright, hpaths⟩ := ih hqs hfields.2
    refine ⟨(f.1, u) :: hs, ?_, ?_, ?_, ?_, ?_⟩
    · exact List.cons_subset.mpr ⟨mem_of_lookup_eq_some hu, hsubset⟩
    · rw [List.map_cons, List.map_cons, hnames]
    · rw [List.map_append, hhead.left, hleft, fieldLeaves]
    · rw [List.map_append, fieldLeaves]
      exact hhead.right.append hright
    · intro x hx
      rcases List.mem_append.mp hx with hx | hx
      · obtain ⟨path, hpath⟩ := hhead.paths x hx
        exact ⟨f, List.mem_cons_self .., u, path, hu, hpath⟩
      · obtain ⟨g, hg, hrest⟩ := hpaths x hx
        exact ⟨g, List.mem_cons_of_mem _ hg, hrest⟩

lemma matches_of_pairItems? {ts us : List PortTree} {pairs : List (Nat × Nat)}
    (hlength : ts.length = us.length) (h : pairItems? ts us = some pairs)
    (hitems : ∀ t ∈ ts, ∀ u ∈ us, ∀ ps, t.pairLeaves? u = some ps → t.Matches u ps) :
    pairs.map Prod.fst = itemLeaves ts ∧ (pairs.map Prod.snd).Perm (itemLeaves us) ∧
      ∀ x ∈ pairs, ∃ (place : Nat) (t u : PortTree) (path : List Step), ts[place]? = some t ∧
        us[place]? = some u ∧ t.at? path = some (.wire x.1) ∧ u.at? path = some (.wire x.2) := by
  induction ts generalizing us pairs with
  | nil =>
    obtain rfl : us = [] := List.length_eq_zero_iff.mp hlength.symm
    rw [pairItems?] at h
    · cases h
      exact ⟨rfl, .refl _, by simp⟩
    · simp
  | cons t ts ih =>
    obtain ⟨u, us, rfl⟩ := List.exists_cons_of_length_eq_add_one hlength.symm
    obtain ⟨ps, qs, hps, hqs, rfl⟩ := pairItems?_cons.mp h
    have hhead := hitems t (List.mem_cons_self ..) u (List.mem_cons_self ..) ps hps
    obtain ⟨hleft, hright, hpaths⟩ := ih (Nat.succ.inj hlength) hqs
      fun t' ht' u' hu' => hitems t' (List.mem_cons_of_mem _ ht') u' (List.mem_cons_of_mem _ hu')
    refine ⟨?_, ?_, ?_⟩
    · rw [List.map_append, hhead.left, hleft, itemLeaves]
    · rw [List.map_append, itemLeaves]
      exact hhead.right.append hright
    · intro x hx
      rcases List.mem_append.mp hx with hx | hx
      · obtain ⟨path, hpath⟩ := hhead.paths x hx
        exact ⟨0, t, u, path, rfl, rfl, hpath⟩
      · obtain ⟨place, t', u', path, ht', hu', hpath⟩ := hpaths x hx
        exact ⟨place + 1, t', u', path, ht', hu', hpath⟩

/-- What is paired is matched. -/
lemma matches_of_pairLeaves? {t u : PortTree} (ht : t.Formed) (hu : u.Formed)
    {pairs : List (Nat × Nat)} (h : t.pairLeaves? u = some pairs) : t.Matches u pairs := by
  induction ht generalizing u pairs with
  | wire a =>
    cases hu with
    | record _ _ => simp [pairLeaves?] at h
    | vector _ _ _ => simp [pairLeaves?] at h
    | wire b =>
      rw [pairLeaves?] at h
      cases h
      refine ⟨rfl, .refl _, ?_⟩
      intro x hx
      obtain rfl := List.mem_singleton.mp hx
      exact ⟨[], rfl, rfl⟩
  | @record fs names _ ih =>
    cases hu with
    | wire _ => simp [pairLeaves?] at h
    | vector _ _ _ => simp [pairLeaves?] at h
    | @record gs _ formed' =>
      obtain ⟨hlength, hpairs⟩ := pairLeaves?_record.mp h
      obtain ⟨hs, hsubset, hnames, hleft, hright, hpaths⟩ := exists_selection_of_pairFields? hpairs
        fun f hf u ps hlookup hps => ih f hf (formed' _ (mem_of_lookup_eq_some hlookup)) hps
      -- distinct names select distinct fields, and as many as there are
      have hsize := congrArg List.length hnames
      simp only [List.length_map] at hsize
      have hdistinct : hs.Nodup := (hnames ▸ names).of_map
      have hperm : hs.Perm gs :=
        (List.subperm_of_subset hdistinct hsubset).perm_of_length_le (by omega)
      refine ⟨hleft, hright.trans ?_, ?_⟩
      · rw [leaves, fieldLeaves_eq_flatMap, fieldLeaves_eq_flatMap]
        exact hperm.flatMap_right _
      · intro x hx
        obtain ⟨f, hf, u, path, hlookup, hpath, hpath'⟩ := hpaths x hx
        have hmember : (record fs).member? f.1 = some f.2 := lookup_eq_some_of_mem names hf
        exact ⟨.field f.1 :: path, Option.bind_eq_some_iff.mpr ⟨f.2, hmember, hpath⟩,
          Option.bind_eq_some_iff.mpr ⟨u, hlookup, hpath'⟩⟩
  | @vector e ts _ _ _ ih =>
    cases hu with
    | wire _ => simp [pairLeaves?] at h
    | record _ _ => simp [pairLeaves?] at h
    | @vector f us _ _ formed' =>
      obtain ⟨⟨-, hlength⟩, hpairs⟩ := pairLeaves?_vector.mp h
      obtain ⟨hleft, hright, hpaths⟩ := matches_of_pairItems? hlength hpairs
        fun t ht u hu ps hps => ih t ht (formed' u hu) hps
      refine ⟨hleft, hright, ?_⟩
      intro x hx
      obtain ⟨place, t, u, path, ht, hu, hpath, hpath'⟩ := hpaths x hx
      exact ⟨.item place :: path, Option.bind_eq_some_iff.mpr ⟨t, ht, hpath⟩,
        Option.bind_eq_some_iff.mpr ⟨u, hu, hpath'⟩⟩

/-- The wires of any two parts of ports can be paired if and only if their shapes are the same up to
the order of fields. Every wire of either part is then in one pair, the pairs have the order of the
first part, and the path to the one wire of a pair is also the path to the other. -/
theorem pairing_matches_parts {s s' : Shape} (hs : s.Distinct) (hs' : s'.Distinct)
    {t t' : PortTree} (ht : (ofShape s).Part t) (ht' : (ofShape s').Part t') :
    ((t.pairLeaves? t').isSome ↔ t.shape.agrees t'.shape = true) ∧
      (t.shape.agrees t'.shape = true ↔ t.shape.normal = t'.shape.normal) ∧
      ∀ pairs, t.pairLeaves? t' = some pairs →
        (pairs.map Prod.fst = t.leaves ∧ t.leaves.Nodup) ∧
        ((pairs.map Prod.snd).Perm t'.leaves ∧ t'.leaves.Nodup) ∧
        ∀ x ∈ pairs, ∃ path, ∀ q, (t.at? q = some (.wire x.1) ↔ q = path) ∧
          (t'.at? q = some (.wire x.2) ↔ q = path) := by
  have hformed := ht.formed (formed_number hs 0)
  have hformed' := ht'.formed (formed_number hs' 0)
  have hnodup := (nodup_leaves_number s 0).sublist ht.sublist_leaves
  have hnodup' := (nodup_leaves_number s' 0).sublist ht'.sublist_leaves
  refine ⟨isSome_pairLeaves?_iff hformed hformed',
    Shape.agrees_iff hformed.distinct_shape hformed'.distinct_shape, ?_⟩
  intro pairs hpairs
  have hmatches := matches_of_pairLeaves? hformed hformed' hpairs
  refine ⟨⟨hmatches.left, hnodup⟩, ⟨hmatches.right, hnodup'⟩, ?_⟩
  intro x hx
  obtain ⟨path, hpath, hpath'⟩ := hmatches.paths x hx
  refine ⟨path, fun q => ⟨⟨?_, ?_⟩, ⟨?_, ?_⟩⟩⟩
  · exact fun hq => path_unique hnodup hq hpath
  · exact fun hq => hq ▸ hpath
  · exact fun hq => path_unique hnodup' hq hpath'
  · exact fun hq => hq ▸ hpath'

/-- A record with its fields in two orders. -/
def lane : Shape :=
  .record [("data", .wire), ("last", .wire)]

def swappedLane : Shape :=
  .record [("last", .wire), ("data", .wire)]

/-- The last two of three lanes, behind another wire, are matched with two lanes whose fields are in
the other order. -/
theorem pairing_matches_parts_lanes :
    let port := ofShape (.record [("busy", .wire), ("lanes", .vector lane 3)])
    let slice := vector lane [number lane 3, number lane 5]
    let whole := ofShape (.vector swappedLane 2)
    port.Part slice ∧ slice.pairLeaves? whole = some [(3, 1), (4, 0), (5, 3), (6, 2)] ∧
      slice.leaves = [3, 4, 5, 6] ∧ [1, 0, 3, 2].Perm whole.leaves ∧
      ∃ path, ∀ q, (slice.at? q = some (.wire 6) ↔ q = path) ∧
        (whole.at? q = some (.wire 2) ↔ q = path) := by
  intro port slice whole
  have hport : (Shape.record [("busy", .wire), ("lanes", .vector lane 3)]).Distinct := by
    simp [lane, Shape.Distinct, Shape.FieldsDistinct]
  have hwhole : (Shape.vector swappedLane 2).Distinct := by
    simp [swappedLane, Shape.Distinct, Shape.FieldsDistinct]
  have hmember : port.member? "lanes" = some (number (.vector lane 3) 1) := rfl
  have hslice : (number (.vector lane 3) 1).slice? 1 2 = some slice := rfl
  have hpart : port.Part slice := .slice (.member .whole hmember) hslice
  have hpairs : slice.pairLeaves? whole = some [(3, 1), (4, 0), (5, 3), (6, 2)] := by
    decide +kernel
  obtain ⟨hleft, hright, hpaths⟩ :=
    (pairing_matches_parts hport hwhole hpart .whole).2.2 _ hpairs
  exact ⟨hpart, hpairs, hleft.1.symm, hright.1, hpaths (6, 2) (by simp)⟩

end PortTree

end NetlistCompiler
