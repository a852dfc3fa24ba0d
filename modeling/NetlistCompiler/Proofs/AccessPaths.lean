import NetlistCompiler.Proofs.Likeness
import NetlistCompiler.Proofs.PortTrees

/-!
# Access paths

A wire of a port is found along a path of field names and indices, and no other path leads to it.
Trees of alike shapes number their wires differently, but they have the same paths: access along a
path stays alike, and the wires of two trees are paired in the same way up to the order of fields.
-/

namespace NetlistCompiler

/-- The first list, related member by member to some order of the second one. -/
def PermRel {α β : Type} (R : α → β → Prop) (as : List α) (bs : List β) : Prop :=
  ∃ cs, List.Forall₂ R as cs ∧ cs.Perm bs

lemma PermRel.append {α β : Type} {R : α → β → Prop} {as as' : List α} {bs bs' : List β}
    (h : PermRel R as bs) (h' : PermRel R as' bs') : PermRel R (as ++ as') (bs ++ bs') := by
  obtain ⟨cs, hcs, hperm⟩ := h
  obtain ⟨cs', hcs', hperm'⟩ := h'
  exact ⟨cs ++ cs', List.rel_append hcs hcs', hperm.append hperm'⟩

lemma PermRel.trans_perm {α β : Type} {R : α → β → Prop} {as : List α} {bs bs' : List β}
    (h : PermRel R as bs) (hperm : bs.Perm bs') : PermRel R as bs' := by
  obtain ⟨cs, hcs, hcs'⟩ := h
  exact ⟨cs, hcs, hcs'.trans hperm⟩

lemma lookup_perm {α : Type} {fs gs : List (String × α)} (h : fs.Perm gs)
    (hgs : (gs.map Prod.fst).Nodup) (name : String) : fs.lookup name = gs.lookup name := by
  have hfs : (fs.map Prod.fst).Nodup := (h.map Prod.fst).nodup_iff.mpr hgs
  ext a
  constructor
  · intro ha
    exact lookup_eq_some_of_mem hgs (h.subset (mem_of_lookup_eq_some ha))
  · intro ha
    exact lookup_eq_some_of_mem hfs (h.symm.subset (mem_of_lookup_eq_some ha))

/-- Where nothing occurs twice, only one part of a list gives an element. -/
lemma eq_of_mem_of_nodup_flatMap {α β : Type} {l : List α} {f : α → List β}
    (h : (l.flatMap f).Nodup) {i j : Nat} {a b : α} (ha : l[i]? = some a) (hb : l[j]? = some b)
    {x : β} (hxa : x ∈ f a) (hxb : x ∈ f b) : i = j := by
  have hdisjoint := List.pairwise_iff_getElem.mp (List.nodup_flatMap.mp h).2
  obtain ⟨hi, rfl⟩ := List.getElem?_eq_some_iff.mp ha
  obtain ⟨hj, rfl⟩ := List.getElem?_eq_some_iff.mp hb
  rcases lt_trichotomy i j with hlt | heq | hlt
  · exact (hdisjoint i j hi hj hlt hxa hxb).elim
  · exact heq
  · exact (hdisjoint j i hj hi hlt hxb hxa).elim

namespace PortTree

/-- A step into a port: a field of a record or an item of a vector. -/
inductive Step where
  | field (name : String)
  | item (place : Nat)

/-- The part of a tree at the end of a path. -/
def at? : PortTree → List Step → Option PortTree
  | t, [] => some t
  | t, .field name :: path => (t.member? name).bind fun u => u.at? path
  | t, .item place :: path => (t.item? place).bind fun u => u.at? path

lemma sublist_leaves_at? {path : List Step} {t u : PortTree} (h : t.at? path = some u) :
    u.leaves.Sublist t.leaves := by
  induction path generalizing t with
  | nil =>
    cases h
    exact List.Sublist.refl _
  | cons step path ih =>
    cases step with
    | field name =>
      obtain ⟨v, hv, hu⟩ := Option.bind_eq_some_iff.mp h
      exact (ih hu).trans (sublist_leaves_member? hv)
    | item place =>
      obtain ⟨v, hv, hu⟩ := Option.bind_eq_some_iff.mp h
      exact (ih hu).trans (sublist_leaves_item? hv)

lemma mem_leaves_of_at? {path : List Step} {t : PortTree} {leaf : Nat}
    (h : t.at? path = some (.wire leaf)) : leaf ∈ t.leaves := by
  have hwire : leaf ∈ (wire leaf).leaves := List.mem_singleton_self leaf
  exact (sublist_leaves_at? h).subset hwire

section

variable {t u u' : PortTree} {leaf : Nat}

/-- Members with a wire in common have the same name. -/
lemma eq_of_mem_members (hnodup : t.leaves.Nodup) {name name' : String}
    (hu : t.member? name = some u) (hu' : t.member? name' = some u') (hleaf : leaf ∈ u.leaves)
    (hleaf' : leaf ∈ u'.leaves) : name = name' := by
  cases t with
  | wire _ => cases hu
  | vector _ _ => cases hu
  | record fields =>
    rw [leaves, fieldLeaves_eq_flatMap] at hnodup
    obtain ⟨i, hi⟩ := List.mem_iff_getElem?.mp (mem_of_lookup_eq_some hu)
    obtain ⟨j, hj⟩ := List.mem_iff_getElem?.mp (mem_of_lookup_eq_some hu')
    obtain rfl := eq_of_mem_of_nodup_flatMap hnodup hi hj hleaf hleaf'
    rw [hi] at hj
    cases hj
    rfl

/-- Items with a wire in common are at the same place. -/
lemma eq_of_mem_items (hnodup : t.leaves.Nodup) {place place' : Nat} (hu : t.item? place = some u)
    (hu' : t.item? place' = some u') (hleaf : leaf ∈ u.leaves) (hleaf' : leaf ∈ u'.leaves) :
    place = place' := by
  cases t with
  | wire _ => cases hu
  | record _ => cases hu
  | vector element items =>
    rw [leaves, itemLeaves_eq_flatMap] at hnodup
    exact eq_of_mem_of_nodup_flatMap hnodup hu hu' hleaf hleaf'

end

/-- Where all wires have different numbers, only one path leads to a wire. -/
lemma path_unique {t : PortTree} (hnodup : t.leaves.Nodup) {leaf : Nat} {path path' : List Step}
    (h : t.at? path = some (.wire leaf)) (h' : t.at? path' = some (.wire leaf)) : path = path' := by
  induction path generalizing t path' with
  | nil =>
    cases h
    cases path' with
    | nil => rfl
    | cons step _ => cases step <;> cases h'
  | cons step path ih =>
    cases step with
    | field name =>
      obtain ⟨u, hu, hrest⟩ := Option.bind_eq_some_iff.mp h
      rcases path' with _ | ⟨_ | _, path'⟩
      · cases h'
        cases hu
      · obtain ⟨u', hu', hrest'⟩ := Option.bind_eq_some_iff.mp h'
        obtain rfl := eq_of_mem_members hnodup hu hu' (mem_leaves_of_at? hrest)
          (mem_leaves_of_at? hrest')
        rw [hu] at hu'
        cases hu'
        rw [ih (hnodup.sublist (sublist_leaves_member? hu)) hrest hrest']
      · obtain ⟨u', hu', -⟩ := Option.bind_eq_some_iff.mp h'
        cases t <;> first | cases hu | cases hu'
    | item place =>
      obtain ⟨u, hu, hrest⟩ := Option.bind_eq_some_iff.mp h
      rcases path' with _ | ⟨_ | _, path'⟩
      · cases h'
        cases hu
      · obtain ⟨u', hu', -⟩ := Option.bind_eq_some_iff.mp h'
        cases t <;> first | cases hu | cases hu'
      · obtain ⟨u', hu', hrest'⟩ := Option.bind_eq_some_iff.mp h'
        obtain rfl := eq_of_mem_items hnodup hu hu' (mem_leaves_of_at? hrest)
          (mem_leaves_of_at? hrest')
        rw [hu] at hu'
        cases hu'
        rw [ih (hnodup.sublist (sublist_leaves_item? hu)) hrest hrest']

lemma lookup_numberFields {fields : List (String × Shape)} {first : Nat} {name : String}
    {t : PortTree} (h : (numberFields fields first).lookup name = some t) :
    ∃ s first', (name, s) ∈ fields ∧ t = number s first' := by
  induction fields generalizing first with
  | nil => simp [numberFields] at h
  | cons f rest ih =>
    obtain ⟨key, s⟩ := f
    rw [numberFields, List.lookup_cons] at h
    split at h
    · next hkey =>
      cases h
      rw [beq_iff_eq] at hkey
      subst hkey
      exact ⟨s, first, List.mem_cons_self .., rfl⟩
    · obtain ⟨s', first', hmem, ht⟩ := ih h
      exact ⟨s', first', List.mem_cons_of_mem _ hmem, ht⟩

end PortTree

/-- The wires of two shapes have the same access path. -/
def Shape.SameWire (s t : Shape) (leaf leaf' : Nat) : Prop :=
  ∃ path, (PortTree.ofShape s).at? path = some (.wire leaf) ∧
    (PortTree.ofShape t).at? path = some (.wire leaf')

namespace Shape

variable {s t : Shape} {a b c : Nat}

lemma SameWire.symm (h : s.SameWire t a b) : t.SameWire s b a := by
  obtain ⟨path, hs, ht⟩ := h
  exact ⟨path, ht, hs⟩

lemma SameWire.left_unique (ha : s.SameWire t a c) (hb : s.SameWire t b c) : a = b := by
  obtain ⟨path, has, hat⟩ := ha
  obtain ⟨path', hbs, hbt⟩ := hb
  obtain rfl := PortTree.path_unique (PortTree.nodup_leaves_number t 0) hat hbt
  rw [has] at hbs
  cases hbs
  rfl

lemma SameWire.lt (h : s.SameWire t a b) : a < s.wireCount := by
  obtain ⟨path, hs, -⟩ := h
  have hmem := PortTree.mem_leaves_number.mp (PortTree.mem_leaves_of_at? hs)
  omega

end Shape

/-! ### Alike trees -/

namespace PortTree

variable {Q R : Nat → Nat → Prop}

mutual

/-- The trees have the same paths up to the order of fields, and their wires are related. -/
def Like (Q : Nat → Nat → Prop) : PortTree → PortTree → Prop
  | .wire leaf, t => ∃ leaf', t = .wire leaf' ∧ Q leaf leaf'
  | .record fields, t => ∃ gs hs, t = .record gs ∧ FieldsLike Q fields hs ∧ hs.Perm gs ∧
      (gs.map Prod.fst).Nodup
  | .vector element items, t => ∃ element' us, t = .vector element' us ∧ element.Like element' ∧
      ItemsLike Q items us

def FieldsLike (Q : Nat → Nat → Prop) : List (String × PortTree) → List (String × PortTree) → Prop
  | [], gs => gs = []
  | (name, t) :: rest, gs => ∃ u gs', gs = (name, u) :: gs' ∧ t.Like Q u ∧ FieldsLike Q rest gs'

def ItemsLike (Q : Nat → Nat → Prop) : List PortTree → List PortTree → Prop
  | [], us => us = []
  | t :: rest, us => ∃ u us', us = u :: us' ∧ t.Like Q u ∧ ItemsLike Q rest us'

end

lemma itemsLike_iff {ts us : List PortTree} :
    ItemsLike Q ts us ↔ List.Forall₂ (Like Q) ts us := by
  induction ts generalizing us with
  | nil => simp [ItemsLike]
  | cons t ts ih =>
    rw [ItemsLike]
    constructor
    · rintro ⟨u, us', rfl, htu, hrest⟩
      exact .cons htu (ih.mp hrest)
    · rintro (_ | ⟨htu, hrest⟩)
      exact ⟨_, _, rfl, htu, ih.mpr hrest⟩

lemma FieldsLike.names {fs gs : List (String × PortTree)} (h : FieldsLike Q fs gs) :
    fs.map Prod.fst = gs.map Prod.fst := by
  induction fs generalizing gs with
  | nil =>
    obtain rfl : gs = [] := h
    rfl
  | cons f fs ih =>
    obtain ⟨u, gs', rfl, -, hrest⟩ := h
    rw [List.map_cons, List.map_cons, ih hrest]

lemma FieldsLike.lookup {fs gs : List (String × PortTree)} (h : FieldsLike Q fs gs)
    (name : String) : Option.Rel (Like Q) (fs.lookup name) (gs.lookup name) := by
  induction fs generalizing gs with
  | nil =>
    obtain rfl : gs = [] := h
    exact .none
  | cons f fs ih =>
    obtain ⟨u, gs', rfl, hlike, hrest⟩ := h
    rw [List.lookup_cons, List.lookup_cons]
    cases name == f.1 with
    | true => exact .some hlike
    | false => exact ih hrest

/-- Records with the same names are alike if the fields of each name are. -/
lemma like_record {fs gs : List (String × PortTree)} (hfs : (fs.map Prod.fst).Nodup)
    (hgs : (gs.map Prod.fst).Nodup) (hlength : fs.length = gs.length)
    (h : ∀ f ∈ fs, ∃ u, gs.lookup f.1 = some u ∧ f.2.Like Q u) :
    (record fs).Like Q (record gs) := by
  have hchoose : ∀ ts : List (String × PortTree),
      (∀ f ∈ ts, ∃ u, gs.lookup f.1 = some u ∧ f.2.Like Q u) →
      ∃ hs, FieldsLike Q ts hs ∧ hs ⊆ gs := by
    intro ts hts
    induction ts with
    | nil => exact ⟨[], rfl, List.nil_subset _⟩
    | cons f ts ih =>
      rw [List.forall_mem_cons] at hts
      obtain ⟨⟨u, hu, hlike⟩, hrest⟩ := hts
      obtain ⟨hs, hfields, hsubset⟩ := ih hrest
      exact ⟨(f.1, u) :: hs, ⟨u, hs, rfl, hlike, hfields⟩,
        List.cons_subset.mpr ⟨mem_of_lookup_eq_some hu, hsubset⟩⟩
  obtain ⟨hs, hfields, hsubset⟩ := hchoose fs h
  have hnames := hfields.names
  have hhs : hs.Nodup := (hnames ▸ hfs).of_map
  have hsize := congrArg List.length hnames
  simp only [List.length_map] at hsize
  exact ⟨gs, hs, rfl, hfields,
    (List.subperm_of_subset hhs hsubset).perm_of_length_le (by omega), hgs⟩

lemma Like.member? {t t' : PortTree} (h : t.Like Q t') (name : String) :
    Option.Rel (Like Q) (t.member? name) (t'.member? name) := by
  cases t with
  | wire leaf =>
    obtain ⟨leaf', rfl, -⟩ := h
    exact .none
  | vector element items =>
    obtain ⟨element', us, rfl, -⟩ := h
    exact .none
  | record fields =>
    obtain ⟨gs, hs, rfl, hfields, hperm, hnodup⟩ := h
    rw [PortTree.member?, PortTree.member?, ← lookup_perm hperm hnodup]
    exact hfields.lookup name

lemma Like.item? {t t' : PortTree} (h : t.Like Q t') (place : Nat) :
    Option.Rel (Like Q) (t.item? place) (t'.item? place) := by
  cases t with
  | wire leaf =>
    obtain ⟨leaf', rfl, -⟩ := h
    exact .none
  | record fields =>
    obtain ⟨gs, hs, rfl, -⟩ := h
    exact .none
  | vector element items =>
    obtain ⟨element', us, rfl, -, hitems⟩ := h
    exact forall₂_getElem? (itemsLike_iff.mp hitems) place

lemma Like.length? {t t' : PortTree} (h : t.Like Q t') : t.length? = t'.length? := by
  cases t with
  | wire leaf =>
    obtain ⟨leaf', rfl, -⟩ := h
    rfl
  | record fields =>
    obtain ⟨gs, hs, rfl, -⟩ := h
    rfl
  | vector element items =>
    obtain ⟨element', us, rfl, -, hitems⟩ := h
    rw [PortTree.length?, PortTree.length?, (itemsLike_iff.mp hitems).length_eq]

lemma Like.slice? {t t' : PortTree} (h : t.Like Q t') (first last : Nat) :
    Option.Rel (Like Q) (t.slice? first last) (t'.slice? first last) := by
  cases t with
  | wire leaf =>
    obtain ⟨leaf', rfl, -⟩ := h
    exact .none
  | record fields =>
    obtain ⟨gs, hs, rfl, -⟩ := h
    exact .none
  | vector element items =>
    obtain ⟨element', us, rfl, helement, hitems⟩ := h
    rw [itemsLike_iff] at hitems
    rw [PortTree.slice?, PortTree.slice?, hitems.length_eq]
    split
    · refine .some ⟨element', _, rfl, helement, itemsLike_iff.mpr ?_⟩
      exact List.forall₂_take _ (List.forall₂_drop first hitems)
    · exact .none

lemma map_fst_numberFields (fields : List (String × Shape)) (first : Nat) :
    (numberFields fields first).map Prod.fst = fields.map Prod.fst := by
  induction fields generalizing first with
  | nil => rfl
  | cons f rest ih => rw [numberFields, List.map_cons, List.map_cons, ih]

/-- Trees of alike shapes are alike if wires with the same path are related. -/
lemma number_like {s s' : Shape} (h : s.Like s') {first first' : Nat}
    (hQ : ∀ path leaf leaf', (number s first).at? path = some (.wire leaf) →
      (number s' first').at? path = some (.wire leaf') → Q leaf leaf') :
    (number s first).Like Q (number s' first') := by
  induction s using Shape.induction generalizing s' first first' with
  | wire =>
    cases s' with
    | wire => exact ⟨first', rfl, hQ [] first first' rfl rfl⟩
    | vector _ _ => cases h.normal
    | record _ => cases h.normal
  | vector element size ih =>
    cases s' with
    | wire => cases h.normal
    | record _ => cases h.normal
    | vector element' size' =>
      have hnormal := h.normal
      rw [Shape.normal, Shape.normal, Shape.vector.injEq] at hnormal
      obtain ⟨hnormal, rfl⟩ := hnormal
      have helement : element.Like element' := ⟨h.left, h.right, hnormal⟩
      rw [number, number]
      refine ⟨element', _, rfl, helement, itemsLike_iff.mpr ?_⟩
      rw [List.forall₂_map_left_iff, List.forall₂_map_right_iff, List.forall₂_same]
      intro place hplace
      apply ih helement
      intro path leaf leaf' hleaf hleaf'
      have hstep : ∀ (e : Shape) (start : Nat), (number (.vector e size) start).item? place =
          some (number e (start + place * e.wireCount)) := by
        intro e start
        rw [number, PortTree.item?, List.getElem?_map,
          List.getElem?_range (List.mem_range.mp hplace)]
        rfl
      apply hQ (.item place :: path)
      · rw [at?, hstep]
        exact hleaf
      · rw [at?, hstep]
        exact hleaf'
  | record fields ih =>
    cases s' with
    | wire => cases h.normal
    | vector _ _ => cases h.normal
    | record fields' =>
      obtain ⟨hnodup, hdistinct⟩ := Shape.distinct_record.mp h.left
      obtain ⟨hnodup', hdistinct'⟩ := Shape.distinct_record.mp h.right
      have hperm := Shape.perm_of_normal_record_eq h.normal
      have hnodup₁ : ((numberFields fields first).map Prod.fst).Nodup := by
        rwa [map_fst_numberFields]
      have hnodup₂ : ((numberFields fields' first').map Prod.fst).Nodup := by
        rwa [map_fst_numberFields]
      have hlengths : ∀ (gs : List (String × Shape)) start,
          (numberFields gs start).length = gs.length := by
        intro gs start
        simpa using congrArg List.length (map_fst_numberFields gs start)
      rw [number, number]
      apply like_record hnodup₁ hnodup₂
      · rw [hlengths, hlengths]
        simpa using hperm.length_eq
      · rintro ⟨name, t⟩ ht
        have hlookup := lookup_eq_some_of_mem hnodup₁ ht
        obtain ⟨s, start, hs, rfl⟩ := lookup_numberFields hlookup
        have hmem : (name, s.normal) ∈ fields'.map fun f => (f.1, f.2.normal) :=
          hperm.subset (List.mem_map_of_mem (f := fun f => (f.1, f.2.normal)) hs)
        obtain ⟨⟨key, s'⟩, hs', heq⟩ := List.mem_map.mp hmem
        obtain ⟨rfl, hnormal⟩ := Prod.mk.inj heq
        have hkey : key ∈ (numberFields fields' first').map Prod.fst := by
          rw [map_fst_numberFields]
          exact List.mem_map_of_mem (f := Prod.fst) hs'
        obtain ⟨⟨_, u⟩, hu, rfl⟩ := List.mem_map.mp hkey
        have hlookup' := lookup_eq_some_of_mem hnodup₂ hu
        obtain ⟨s'', start', hs'', rfl⟩ := lookup_numberFields hlookup'
        obtain rfl : s'' = s' := by
          have hsame := lookup_eq_some_of_mem hnodup' hs''
          rw [lookup_eq_some_of_mem hnodup' hs'] at hsame
          exact (Option.some.inj hsame).symm
        refine ⟨_, hlookup', ih (_, s) hs ⟨hdistinct _ hs, hdistinct' _ hs', hnormal.symm⟩ ?_⟩
        intro path leaf leaf' hleaf hleaf'
        apply hQ (.field _ :: path)
        · rw [at?, number, PortTree.member?, hlookup]
          exact hleaf
        · rw [at?, number, PortTree.member?, hlookup']
          exact hleaf'

lemma ofShape_like {s t : Shape} (h : s.Like t) : (ofShape s).Like (s.SameWire t) (ofShape t) :=
  number_like h fun path _ _ hs ht => ⟨path, hs, ht⟩

mutual

/-- Every wire of a tree is related to a wire of an alike tree. -/
lemma exists_leaf_of_like : ∀ (t u : PortTree), t.Like Q u → ∀ a ∈ t.leaves, ∃ b, Q a b
  | .wire leaf, _, ⟨leaf', _, hleaf⟩, a, ha => by
    rw [leaves, List.mem_singleton] at ha
    exact ⟨leaf', ha ▸ hleaf⟩
  | .record fields, _, ⟨gs, hs, _, hfields, _⟩, a, ha => by
    rw [leaves] at ha
    exact exists_leaf_of_fieldsLike fields hs hfields a ha
  | .vector element items, _, ⟨_, us, _, _, hitems⟩, a, ha => by
    rw [leaves] at ha
    exact exists_leaf_of_itemsLike items us hitems a ha

lemma exists_leaf_of_fieldsLike : ∀ (fs gs : List (String × PortTree)), FieldsLike Q fs gs →
    ∀ a ∈ fieldLeaves fs, ∃ b, Q a b
  | [], _, _, a, ha => by simp [fieldLeaves] at ha
  | (name, t) :: rest, _, ⟨u, gs, _, htu, hrest⟩, a, ha => by
    rw [fieldLeaves, List.mem_append] at ha
    rcases ha with ha | ha
    · exact exists_leaf_of_like t u htu a ha
    · exact exists_leaf_of_fieldsLike rest gs hrest a ha

lemma exists_leaf_of_itemsLike : ∀ ts us : List PortTree, ItemsLike Q ts us →
    ∀ a ∈ itemLeaves ts, ∃ b, Q a b
  | [], _, _, a, ha => by simp [itemLeaves] at ha
  | t :: rest, _, ⟨u, us, _, htu, hrest⟩, a, ha => by
    rw [itemLeaves, List.mem_append] at ha
    rcases ha with ha | ha
    · exact exists_leaf_of_like t u htu a ha
    · exact exists_leaf_of_itemsLike rest us hrest a ha

end

/-- Every wire of a shape has the access path of a wire of an alike shape. -/
lemma exists_sameWire {s t : Shape} (h : s.Like t) {leaf : Nat} (hleaf : leaf < s.wireCount) :
    ∃ leaf', s.SameWire t leaf leaf' :=
  exists_leaf_of_like _ _ (ofShape_like h) leaf (mem_leaves_number.mpr (by omega))

/-- Fields of a record in another order are paired in another order. -/
lemma pairFields?_perm {fs gs us : List (String × PortTree)} (h : fs.Perm gs)
    {pairs : List (Nat × Nat)} (hpairs : pairFields? fs us = some pairs) :
    ∃ pairs', pairFields? gs us = some pairs' ∧ pairs.Perm pairs' := by
  induction h generalizing pairs with
  | nil => exact ⟨pairs, hpairs, .refl _⟩
  | cons f _ ih =>
    obtain ⟨u, ps, rs, hu, hps, hrs, rfl⟩ := pairFields?_cons.mp hpairs
    obtain ⟨rs', hrs', hperm⟩ := ih hrs
    exact ⟨ps ++ rs', pairFields?_cons.mpr ⟨u, ps, rs', hu, hps, hrs', rfl⟩, hperm.append_left ps⟩
  | swap f g l =>
    obtain ⟨u, ps, rs, hu, hps, hrs, rfl⟩ := pairFields?_cons.mp hpairs
    obtain ⟨v, qs, rest, hv, hqs, hrest, rfl⟩ := pairFields?_cons.mp hrs
    refine ⟨qs ++ (ps ++ rest), pairFields?_cons.mpr ⟨v, qs, _, hv, hqs,
      pairFields?_cons.mpr ⟨u, ps, rest, hu, hps, hrest, rfl⟩, rfl⟩, ?_⟩
    rw [← List.append_assoc, ← List.append_assoc]
    exact List.perm_append_comm.append_right rest
  | trans _ _ ih ih' =>
    obtain ⟨pairs', hpairs', hperm⟩ := ih hpairs
    obtain ⟨pairs'', hpairs'', hperm'⟩ := ih' hpairs'
    exact ⟨pairs'', hpairs'', hperm.trans hperm'⟩

mutual

/-- The wires of alike trees are paired alike. -/
lemma pairLeaves?_like : ∀ (t t' u u' : PortTree) {pairs : List (Nat × Nat)}, t.Like Q t' →
    u.Like R u' → t.pairLeaves? u = some pairs →
    ∃ pairs', t'.pairLeaves? u' = some pairs' ∧
      PermRel (fun x y => Q x.1 y.1 ∧ R x.2 y.2) pairs pairs'
  | .wire a, t', u, u', pairs, ht, hu, h => by
    cases u with
    | wire b =>
      obtain ⟨a', rfl, ha⟩ := ht
      obtain ⟨b', rfl, hb⟩ := hu
      rw [pairLeaves?] at h
      cases h
      exact ⟨[(a', b')], by rw [pairLeaves?], [(a', b')], .cons ⟨ha, hb⟩ .nil, .refl _⟩
    | record _ => simp [pairLeaves?] at h
    | vector _ _ => simp [pairLeaves?] at h
  | .record fs, t', u, u', pairs, ht, hu, h => by
    cases u with
    | record gs =>
      obtain ⟨fs', fs₁, rfl, hfs, hfs', -⟩ := ht
      obtain ⟨gs', gs₁, rfl, hgs, hgs', hnodup⟩ := hu
      obtain ⟨hlength, hpairs⟩ := pairLeaves?_record.mp h
      have hlookup : ∀ name, Option.Rel (Like R) (gs.lookup name) (gs'.lookup name) := by
        intro name
        rw [← lookup_perm hgs' hnodup]
        exact hgs.lookup name
      obtain ⟨pairs₁, hpairs₁, hrel⟩ := pairFields?_like fs fs₁ gs gs' hfs hlookup hpairs
      obtain ⟨pairs', hpairs', hperm⟩ := pairFields?_perm hfs' hpairs₁
      have hleft := congrArg List.length hfs.names
      have hright := congrArg List.length hgs.names
      simp only [List.length_map] at hleft hright
      have hlength' : fs'.length = gs'.length := by
        rw [← hfs'.length_eq, ← hgs'.length_eq, ← hleft, ← hright, hlength]
      exact ⟨pairs', pairLeaves?_record.mpr ⟨hlength', hpairs'⟩, hrel.trans_perm hperm⟩
    | wire _ => simp [pairLeaves?] at h
    | vector _ _ => simp [pairLeaves?] at h
  | .vector e ts, t', u, u', pairs, ht, hu, h => by
    cases u with
    | vector f us =>
      obtain ⟨e', ts', rfl, he, hts⟩ := ht
      obtain ⟨f', us', rfl, hf, hus⟩ := hu
      obtain ⟨⟨hagrees, hlength⟩, hpairs⟩ := pairLeaves?_vector.mp h
      obtain ⟨pairs', hpairs', hrel⟩ := pairItems?_like ts ts' us us' hts hus hpairs
      rw [itemsLike_iff] at hts hus
      have hlike : e.Like f := ⟨he.left, hf.left, (Shape.agrees_iff he.left hf.left).mp hagrees⟩
      have hagrees' : e'.agrees f' = true := ((he.symm.trans hlike).trans hf).agrees
      have hlength' : ts'.length = us'.length := by
        rw [← hts.length_eq, ← hus.length_eq, hlength]
      exact ⟨pairs', pairLeaves?_vector.mpr ⟨⟨hagrees', hlength'⟩, hpairs'⟩, hrel⟩
    | wire _ => simp [pairLeaves?] at h
    | record _ => simp [pairLeaves?] at h

lemma pairFields?_like : ∀ (fs fs' gs gs' : List (String × PortTree)) {pairs : List (Nat × Nat)},
    FieldsLike Q fs fs' → (∀ name, Option.Rel (Like R) (gs.lookup name) (gs'.lookup name)) →
    pairFields? fs gs = some pairs →
    ∃ pairs', pairFields? fs' gs' = some pairs' ∧
      PermRel (fun x y => Q x.1 y.1 ∧ R x.2 y.2) pairs pairs'
  | [], fs', gs, gs', pairs, hfs, hgs, h => by
    obtain rfl : fs' = [] := hfs
    rw [pairFields?] at h
    cases h
    exact ⟨[], by rw [pairFields?], [], .nil, .refl _⟩
  | (name, t) :: rest, fs', gs, gs', pairs, hfs, hgs, h => by
    obtain ⟨t', rest', rfl, ht, hrest⟩ := hfs
    obtain ⟨u, ps, qs, hu, hps, hqs, rfl⟩ := pairFields?_cons.mp h
    have hname := hgs name
    rw [hu] at hname
    cases hu' : gs'.lookup name with
    | none =>
      rw [hu'] at hname
      cases hname
    | some u' =>
      rw [hu'] at hname
      cases hname with
      | some hlike =>
        obtain ⟨ps', hps', hrel⟩ := pairLeaves?_like t t' u u' ht hlike hps
        obtain ⟨qs', hqs', hrel'⟩ := pairFields?_like rest rest' gs gs' hrest hgs hqs
        exact ⟨ps' ++ qs', pairFields?_cons.mpr ⟨u', ps', qs', hu', hps', hqs', rfl⟩,
          hrel.append hrel'⟩

lemma pairItems?_like : ∀ (ts ts' us us' : List PortTree) {pairs : List (Nat × Nat)},
    ItemsLike Q ts ts' → ItemsLike R us us' → pairItems? ts us = some pairs →
    ∃ pairs', pairItems? ts' us' = some pairs' ∧
      PermRel (fun x y => Q x.1 y.1 ∧ R x.2 y.2) pairs pairs'
  | [], ts', us, us', pairs, hts, hus, h => by
    obtain rfl : ts' = [] := hts
    simp only [pairItems?] at h ⊢
    cases h
    exact ⟨[], rfl, [], .nil, .refl _⟩
  | t :: ts, ts', us, us', pairs, hts, hus, h => by
    obtain ⟨t', ts', rfl, ht, hts⟩ := hts
    cases us with
    | nil =>
      obtain rfl : us' = [] := hus
      simp only [pairItems?] at h ⊢
      cases h
      exact ⟨[], rfl, [], .nil, .refl _⟩
    | cons u us =>
      obtain ⟨u', us', rfl, hu, hus⟩ := hus
      obtain ⟨ps, qs, hps, hqs, rfl⟩ := pairItems?_cons.mp h
      obtain ⟨ps', hps', hrel⟩ := pairLeaves?_like t t' u u' ht hu hps
      obtain ⟨qs', hqs', hrel'⟩ := pairItems?_like ts ts' us us' hts hus hqs
      exact ⟨ps' ++ qs', pairItems?_cons.mpr ⟨ps', qs', hps', hqs', rfl⟩, hrel.append hrel'⟩

end

end PortTree

end NetlistCompiler
