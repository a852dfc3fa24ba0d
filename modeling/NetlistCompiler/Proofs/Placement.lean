import NetlistCompiler.Proofs.AccessPaths
import NetlistCompiler.Proofs.KnownNames
import NetlistCompiler.Proofs.Wiring

/-!
# Placed modules

While a module is built a second time, possibly in another order, a placement says where the nodes
of the first module stand in the second one. Nodes at corresponding places resemble each other, and
the connections made so far are the images of some connections of the first module. A node with no
place yet can be placed, and a connection with no image yet can be made: in a well wired module no
wire is driven twice, so neither is its image.
-/

namespace NetlistCompiler

/-- The kinds are the same up to the numbers of modules and the order of fields. -/
inductive NodeKind.Like : NodeKind → NodeKind → Prop where
  | input : Like .input .input
  | output : Like .output .output
  | pass : Like .pass .pass
  | instance (id id' : Nat) {i j : Invocation} : i.Like j → Like (.instance id i) (.instance id' j)
  | primitive {q q' : Primitive} : q.Like q' → Like (.primitive q) (.primitive q')

/-- The names are the same, or those of two nodes without a name of their own. -/
def NamesMatch (name name' : String) : Prop :=
  name = name' ∨ ∃ k l : Nat, name = s!"anonymous_{k}" ∧ name' = s!"anonymous_{l}"

/-- The ports of two nodes correspond. The ports of a pass node have its name. -/
structure Port.Resembles (n n' : Node) (q q' : Port) : Prop where
  name : q.name = q'.name ∨ n.kind = .pass ∧ q.name = n.name ∧ q'.name = n'.name
  kind : q.kind = q'.kind
  shape : q.shape.Like q'.shape

structure Node.Resembles (n n' : Node) : Prop where
  name : NamesMatch n.name n'.name
  kind : n.kind.Like n'.kind
  ports : ∀ side, List.Forall₂ (Port.Resembles n n') (n.ports side) (n'.ports side)

lemma Port.forall₂_resembles {n n' : Node} {qs qs' : List Port} (h : List.Forall₂ Port.Like qs qs') :
    List.Forall₂ (Port.Resembles n n') qs qs' :=
  h.imp fun _ _ hq => ⟨.inl hq.name, hq.kind, hq.shape⟩

lemma Node.resembles_of_ports {n n' : Node} (hname : NamesMatch n.name n'.name)
    (hkind : n.kind.Like n'.kind) (hinputs : List.Forall₂ Port.Like n.inputs n'.inputs)
    (houtputs : List.Forall₂ Port.Like n.outputs n'.outputs) : n.Resembles n' := by
  refine ⟨hname, hkind, ?_⟩
  intro side
  cases side with
  | input => exact Port.forall₂_resembles hinputs
  | output => exact Port.forall₂_resembles houtputs

lemma Node.Resembles.fits {n n' : Node} (h : n.Resembles n')
    (hn : ∀ side, ∀ q ∈ n.ports side, q.Fits) : ∀ side, ∀ q ∈ n'.ports side, q.Fits := by
  intro side q' hq'
  obtain ⟨q, hq, hqq'⟩ := exists_mem_of_forall₂ (h.ports side) hq'
  have hfit := hn side q hq
  unfold Port.Fits at hfit ⊢
  rwa [← hqq'.shape.wireCount]

/-- Where nodes of a module stand in another one: the number there, and the node. -/
abbrev Placement := Nat → Option (Nat × Node)

namespace Placement

variable {ρ ρ' ρ'' : Placement}

/-- Everything placed stays where it is. -/
def Extends (ρ ρ' : Placement) : Prop :=
  ∀ a x, ρ a = some x → ρ' a = some x

lemma extends_self (ρ : Placement) : ρ.Extends ρ :=
  fun _ _ h => h

lemma Extends.trans (h : ρ.Extends ρ') (h' : ρ'.Extends ρ'') : ρ.Extends ρ'' :=
  fun a x hx => h' a x (h a x hx)

/-- The second placement also places the nodes of a set, and no other ones. -/
structure Adds (ρ ρ' : Placement) (A : Set Nat) : Prop where
  keeps : ρ.Extends ρ'
  domain : ∀ a, (ρ' a).isSome = true ↔ (ρ a).isSome = true ∨ a ∈ A

lemma adds_empty (ρ : Placement) : ρ.Adds ρ ∅ :=
  ⟨ρ.extends_self, by simp⟩

lemma Adds.eq_of_empty (h : ρ.Adds ρ' ∅) : ρ' = ρ := by
  funext a
  cases ha : ρ a with
  | some x => exact h.keeps a x ha
  | none =>
    have hnot : ¬ (ρ' a).isSome = true := by simp [h.domain, ha]
    simpa using hnot

lemma Adds.trans {A A' : Set Nat} (h : ρ.Adds ρ' A) (h' : ρ'.Adds ρ'' A') : ρ.Adds ρ'' (A ∪ A') := by
  refine ⟨h.keeps.trans h'.keeps, ?_⟩
  intro a
  rw [h'.domain, h.domain, Set.mem_union, or_assoc]

lemma Adds.eq_none {A A' : Set Nat} (h : ρ.Adds ρ' A) (hdisjoint : Disjoint A A')
    (hnone : ∀ a ∈ A', ρ a = none) : ∀ a ∈ A', ρ' a = none := by
  intro a ha
  have hnot : ¬ (ρ' a).isSome = true := by
    rw [h.domain, hnone a ha]
    rintro (hsome | hmem)
    · cases hsome
    · exact Set.disjoint_left.mp hdisjoint hmem ha
  simpa using hnot

/-- The placement with one more node. -/
def place (ρ : Placement) (a : Nat) (x : Nat × Node) : Placement :=
  Function.update ρ a (some x)

lemma place_self (ρ : Placement) (a : Nat) (x : Nat × Node) : ρ.place a x a = some x :=
  Function.update_self ..

lemma adds_place {a : Nat} (ha : ρ a = none) (x : Nat × Node) : ρ.Adds (ρ.place a x) {a} := by
  constructor
  · intro b y hy
    rw [place, Function.update_of_ne]
    · exact hy
    · rintro rfl
      rw [ha] at hy
      cases hy
  · intro b
    rw [place, Set.mem_singleton_iff]
    by_cases hb : b = a
    · simp [hb]
    · simp [hb]

end Placement

/-- Slots of ports of two shapes that have the same access path. -/
inductive Slot.Matches (s t : Shape) : Slot → Slot → Prop where
  | data {leaf leaf' : Nat} : s.SameWire t leaf leaf' → Matches s t (.data leaf) (.data leaf')
  | valid : Matches s t .valid .valid
  | ready : Matches s t .ready .ready

/-- The second wire is the image of the first one. -/
structure Wire.PlacedAs (m : Module) (ρ : Placement) (w w' : Wire) : Prop where
  side : w'.side = w.side
  port : w'.port = w.port
  slot : ∃ n n' q q', ρ w.node = some (w'.node, n') ∧ m.nodes[w.node]? = some n ∧
    (n.ports w.side)[w.port]? = some q ∧ (n'.ports w.side)[w.port]? = some q' ∧
    w.slot.Matches q.shape q'.shape w'.slot

structure Connection.PlacedAs (m : Module) (ρ : Placement) (c c' : Connection) : Prop where
  driver : c.driver.PlacedAs m ρ c'.driver
  driven : c.driven.PlacedAs m ρ c'.driven

/-- A part of a module stands in another one: the nodes with a place, and the connections with a
number in the set. -/
structure Placed (m t : Module) (ρ : Placement) (X : Set Nat) : Prop where
  node : ∀ a x, ρ a = some x → t.nodes[x.1]? = some x.2 ∧ ∃ n, m.nodes[a]? = some n ∧ n.Resembles x.2
  injective : ∀ a b x y, ρ a = some x → ρ b = some y → x.1 = y.1 → a = b
  onto : ∀ k < t.nodes.size, ∃ a x, ρ a = some x ∧ x.1 = k
  made : ∀ c' ∈ t.connections, ∃ k ∈ X, ∃ c, m.connections[k]? = some c ∧ c.PlacedAs m ρ c'
  image : ∀ k ∈ X, ∃ c, m.connections[k]? = some c ∧ ∃ c' ∈ t.connections, c.PlacedAs m ρ c'

variable {m t : Module} {ρ ρ' : Placement} {X : Set Nat}

lemma Wire.PlacedAs.mono {w w' : Wire} (h : w.PlacedAs m ρ w') (hρ : ρ.Extends ρ') :
    w.PlacedAs m ρ' w' := by
  obtain ⟨n, n', q, q', hplace, hrest⟩ := h.slot
  exact ⟨h.side, h.port, n, n', q, q', hρ _ _ hplace, hrest⟩

lemma Connection.PlacedAs.mono {c c' : Connection} (h : c.PlacedAs m ρ c') (hρ : ρ.Extends ρ') :
    c.PlacedAs m ρ' c' :=
  ⟨h.driver.mono hρ, h.driven.mono hρ⟩

lemma Wire.PlacedAs.isProduced {w w' : Wire} (h : w.PlacedAs m ρ w') :
    w'.isProduced = w.isProduced := by
  obtain ⟨n, n', q, q', -, -, -, -, hslot⟩ := h.slot
  unfold Wire.isProduced
  rw [h.side]
  revert hslot
  generalize w.slot = slot
  generalize w'.slot = slot'
  rintro (_ | _ | _) <;> rfl

lemma placed_empty (i : Invocation) (inputs outputs : List Port) :
    Placed m (.empty i inputs outputs) (fun _ => none) ∅ := by
  constructor <;> simp [Module.empty]

namespace Placed

/-- Two wires with the same image are the same. -/
lemma eq_of_placedAs (h : Placed m t ρ X) {v w u : Wire} (hv : v.PlacedAs m ρ u)
    (hw : w.PlacedAs m ρ u) : v = w := by
  obtain ⟨vnode, vside, vport, vslot⟩ := v
  obtain ⟨wnode, wside, wport, wslot⟩ := w
  obtain ⟨hvside, hvport, n, n', q, q', hρv, hn, hq, hq', hvslot⟩ := hv
  obtain ⟨hwside, hwport, o, o', r, r', hρw, ho, hr, hr', hwslot⟩ := hw
  dsimp only at *
  obtain rfl : vside = wside := hvside.symm.trans hwside
  obtain rfl : vport = wport := hvport.symm.trans hwport
  obtain rfl := h.injective _ _ _ _ hρv hρw rfl
  rw [hρv] at hρw
  cases hρw
  rw [hn] at ho
  cases ho
  rw [hq] at hr
  cases hr
  rw [hq'] at hr'
  cases hr'
  have hslot : vslot = wslot := by
    revert hvslot hwslot
    generalize u.slot = slot
    rintro (hleaf | _ | _) (hleaf' | _ | _)
    · rw [hleaf.left_unique hleaf']
    · rfl
    · rfl
  rw [hslot]

/-- The image of a wire is there, unless its port is too wide. -/
lemma hasWire_of_placedAs (h : Placed m t ρ X) {w w' : Wire} (hw : w.PlacedAs m ρ w')
    (hwire : m.hasWire w = true)
    (hfits : ∀ n ∈ m.nodes, ∀ side, ∀ q ∈ n.ports side, q.Fits) : t.hasWire w' = true := by
  obtain ⟨hside, hport, n, n', q, q', hρ, hn, hq, hq', hslot⟩ := hw
  obtain ⟨ht, n₁, hn₁, hresembles⟩ := h.node _ _ hρ
  rw [hn] at hn₁
  cases hn₁
  have hget := forall₂_getElem? (hresembles.ports w.side) w.port
  rw [hq, hq'] at hget
  cases hget with
  | some hqq' =>
    have hfit : q.Fits := hfits n (Array.mem_of_getElem? hn) w.side q (List.mem_of_getElem? hq)
    unfold Module.hasWire Module.port? Module.portsOf at hwire ⊢
    rw [hn] at hwire
    dsimp only at ht hwire ⊢
    rw [hq] at hwire
    rw [ht, hside, hport]
    dsimp only at hwire ⊢
    rw [hq']
    dsimp only at hwire ⊢
    revert hslot hwire
    generalize w.slot = slot
    generalize w'.slot = slot'
    rintro hwire (hleaf | _ | _)
    · have hlt := hleaf.symm.lt
      unfold Port.Fits at hfit
      rw [hqq'.shape.wireCount] at hfit
      have hwidth : q'.shape.width = q'.shape.wireCount := min_eq_left hfit
      simpa [hwidth] using hlt
    · simpa [← hqq'.kind] using hwire
    · simpa [← hqq'.kind] using hwire

/-- A node that has no place yet is added. -/
lemma addNode (h : Placed m t ρ X) {a : Nat} {n n' : Node} (ha : ρ a = none)
    (hn : m.nodes[a]? = some n) (hresembles : n.Resembles n') :
    Placed m (t.addNode n') (ρ.place a (t.nodes.size, n')) X := by
  have hadds := Placement.adds_place ha (t.nodes.size, n')
  have hcases : ∀ b x, ρ.place a (t.nodes.size, n') b = some x →
      ρ b = some x ∨ b = a ∧ x = (t.nodes.size, n') := by
    intro b x hx
    by_cases hb : b = a
    · subst hb
      rw [Placement.place_self] at hx
      cases hx
      exact .inr ⟨rfl, rfl⟩
    · rw [Placement.place, Function.update_of_ne hb] at hx
      exact .inl hx
  have hbelow : ∀ b x, ρ b = some x → x.1 < t.nodes.size := by
    intro b x hx
    exact (Array.getElem?_eq_some_iff.mp (h.node b x hx).1).1
  constructor
  · intro b x hx
    rcases hcases b x hx with hx | ⟨rfl, rfl⟩
    · obtain ⟨ht, hrest⟩ := h.node b x hx
      refine ⟨?_, hrest⟩
      rw [Module.addNode, Array.getElem?_push_lt (hbelow b x hx), ← ht,
        Array.getElem?_eq_getElem (hbelow b x hx)]
    · exact ⟨by simp [Module.addNode], n, hn, hresembles⟩
  · intro b c x y hx hy hxy
    rcases hcases b x hx with hold | ⟨rfl, rfl⟩
    · rcases hcases c y hy with hold' | ⟨rfl, rfl⟩
      · exact h.injective b c x y hold hold' hxy
      · have hlt := hbelow b x hold
        omega
    · rcases hcases c y hy with hold' | ⟨rfl, rfl⟩
      · have hlt := hbelow c y hold'
        dsimp only at hxy
        omega
      · rfl
  · intro k hk
    by_cases hlast : k = t.nodes.size
    · exact ⟨a, _, ρ.place_self a _, hlast.symm⟩
    · have hlt : k < t.nodes.size := by
        simp only [Module.addNode, Array.size_push] at hk
        omega
      obtain ⟨b, x, hx, rfl⟩ := h.onto k hlt
      exact ⟨b, x, hadds.keeps b x hx, rfl⟩
  · intro c' hc'
    obtain ⟨k, hk, c, hc, hplaced⟩ := h.made c' hc'
    exact ⟨k, hk, c, hc, hplaced.mono hadds.keeps⟩
  · intro k hk
    obtain ⟨c, hc, c', hc', hplaced⟩ := h.image k hk
    exact ⟨c, hc, c', hc', hplaced.mono hadds.keeps⟩

/-- A connection with no image yet can be made: its image goes to a wire that is not driven. -/
lemma connect_eq_ok (h : Placed m t ρ X) (hwired : m.WellWired)
    (hfits : ∀ n ∈ m.nodes, ∀ side, ∀ q ∈ n.ports side, q.Fits) {k : Nat} (hk : k ∉ X)
    {c c' : Connection} (hc : m.connections[k]? = some c) (hplaced : c.PlacedAs m ρ c') :
    t.connect c'.driver c'.driven = .ok (t.extend [] [c']) := by
  have hmem := Array.mem_of_getElem? hc
  have hfree : ∀ x ∈ t.connections, x.driven ≠ c'.driven := by
    intro x hx hsame
    obtain ⟨l, hl, d, hd, hxplaced⟩ := h.made x hx
    have hdriven := hxplaced.driven
    rw [hsame] at hdriven
    have heq := h.eq_of_placedAs hdriven hplaced.driven
    obtain ⟨hl', rfl⟩ := Array.getElem?_eq_some_iff.mp hd
    obtain ⟨hk', rfl⟩ := Array.getElem?_eq_some_iff.mp hc
    have hpair := List.pairwise_iff_getElem.mp hwired.single
    simp only [Array.length_toList, Array.getElem_toList] at hpair
    rcases lt_trichotomy l k with hlk | rfl | hlk
    · exact hpair l k hl' hk' hlk heq
    · exact hk hl
    · exact hpair k l hk' hl' hlk heq.symm
  apply Module.connect_eq_ok
  · exact h.hasWire_of_placedAs hplaced.driver (hwired.hasDriver c hmem) hfits
  · exact h.hasWire_of_placedAs hplaced.driven (hwired.hasDriven c hmem) hfits
  · rw [hplaced.driver.isProduced]
    exact hwired.produced c hmem
  · rw [hplaced.driven.isProduced]
    exact hwired.consumed c hmem
  · exact hfree

lemma connect (h : Placed m t ρ X) {k : Nat} {c c' : Connection}
    (hc : m.connections[k]? = some c) (hplaced : c.PlacedAs m ρ c') :
    Placed m (t.extend [] [c']) ρ (X ∪ {k}) := by
  refine ⟨h.node, h.injective, h.onto, ?_, ?_⟩
  · intro x hx
    rcases Module.mem_extend.mp hx with hx | hx
    · obtain ⟨l, hl, d, hd⟩ := h.made x hx
      exact ⟨l, .inl hl, d, hd⟩
    · obtain rfl := List.mem_singleton.mp hx
      exact ⟨k, .inr rfl, c, hc, hplaced⟩
  · rintro l (hl | rfl)
    · obtain ⟨d, hd, x, hx, hxplaced⟩ := h.image l hl
      exact ⟨d, hd, x, Module.mem_extend.mpr (.inl hx), hxplaced⟩
    · exact ⟨c, hc, c', Module.mem_extend.mpr (.inr (List.mem_singleton_self c')), hplaced⟩

end Placed

/-! ### Modules node by node -/

/-- Every node of a module at its own number. -/
def Placement.inPlace (t : Module) : Placement :=
  fun k => t.nodes[k]?.map fun n => (k, n)

lemma Placement.inPlace_eq_some {k : Nat} {x : Nat × Node} :
    inPlace t k = some x ↔ x.1 = k ∧ t.nodes[k]? = some x.2 := by
  unfold inPlace
  constructor
  · intro h
    obtain ⟨n, hn, rfl⟩ := Option.map_eq_some_iff.mp h
    exact ⟨rfl, hn⟩
  · rintro ⟨rfl, hx⟩
    rw [hx]
    rfl

/-- The second module is the first one up to the numbers of modules, the order of connections and
the order of fields. -/
structure Module.Twin (m m' : Module) : Prop where
  invocation : m.invocation.Like m'.invocation
  inputs : List.Forall₂ Port.Like m.inputs m'.inputs
  outputs : List.Forall₂ Port.Like m.outputs m'.outputs
  nodes : List.Forall₂ (fun n n' => n.name = n'.name ∧ n.Resembles n') m.nodes.toList m'.nodes.toList
  placed : Placed m m' (.inPlace m') (Set.Iio m.connections.size)

lemma placed_inPlace (hnodes : List.Forall₂ Node.Resembles m.nodes.toList t.nodes.toList)
    (hmade : ∀ c' ∈ t.connections, ∃ c ∈ m.connections, c.PlacedAs m (.inPlace t) c')
    (himage : ∀ c ∈ m.connections, ∃ c' ∈ t.connections, c.PlacedAs m (.inPlace t) c') :
    Placed m t (.inPlace t) (Set.Iio m.connections.size) := by
  constructor
  · intro k x hx
    obtain ⟨rfl, hx⟩ := Placement.inPlace_eq_some.mp hx
    have hget := forall₂_getElem? hnodes x.1
    rw [Array.getElem?_toList, Array.getElem?_toList, hx] at hget
    generalize hn : m.nodes[x.1]? = found at hget
    cases hget with
    | some hresembles => exact ⟨hx, _, rfl, hresembles⟩
  · intro k l x y hx hy hxy
    rw [Placement.inPlace_eq_some] at hx hy
    rw [← hx.1, hxy, hy.1]
  · intro k hk
    exact ⟨k, (k, t.nodes[k]), Placement.inPlace_eq_some.mpr ⟨rfl, by simp [hk]⟩, rfl⟩
  · intro c' hc'
    obtain ⟨c, hc, hplaced⟩ := hmade c' hc'
    obtain ⟨k, hk⟩ := Array.getElem?_of_mem hc
    exact ⟨k, (Array.getElem?_eq_some_iff.mp hk).1, c, hk, hplaced⟩
  · intro k hk
    obtain ⟨c', hc', hplaced⟩ := himage m.connections[k] (Array.getElem_mem hk)
    exact ⟨m.connections[k], Array.getElem?_eq_getElem hk, c', hc', hplaced⟩

end NetlistCompiler
