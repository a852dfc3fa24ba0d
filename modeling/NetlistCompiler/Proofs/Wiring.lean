import NetlistCompiler.Netlist
import NetlistCompiler.Proofs.Traversals

/-!
# Wiring

A module is well wired if its connections join existing wires in the direction of the signal and no
wire is driven twice. Adding a node and making a connection keep a module well wired, and nothing
that is there already changes: wires, registers and drivers stay what they are.
-/

namespace NetlistCompiler

namespace Module

structure WellWired (m : Module) : Prop where
  hasDriver : ∀ c ∈ m.connections, m.hasWire c.driver = true
  hasDriven : ∀ c ∈ m.connections, m.hasWire c.driven = true
  produced : ∀ c ∈ m.connections, c.driver.isProduced = true
  consumed : ∀ c ∈ m.connections, c.driven.isProduced = false
  single : m.connections.toList.Pairwise fun a b => a.driven ≠ b.driven

/-- The module with more nodes and connections. -/
def extend (m : Module) (ns : List Node) (cs : List Connection) : Module :=
  { m with nodes := m.nodes ++ ns.toArray, connections := m.connections ++ cs.toArray }

variable {m : Module}

lemma addNode_eq_extend (m : Module) (n : Node) : m.addNode n = m.extend [n] [] := by
  simp [addNode, extend]

lemma extend_extend (ns ns' : List Node) (cs cs' : List Connection) :
    (m.extend ns cs).extend ns' cs' = m.extend (ns ++ ns') (cs ++ cs') := by
  simp [extend, Array.append_assoc]

@[simp] lemma extend_nil (m : Module) : m.extend [] [] = m := by
  simp [extend]

lemma size_extend (ns : List Node) (cs : List Connection) :
    (m.extend ns cs).nodes.size = m.nodes.size + ns.length := by
  simp [extend]

lemma mem_extend {ns : List Node} {cs : List Connection} {c : Connection} :
    c ∈ (m.extend ns cs).connections ↔ c ∈ m.connections ∨ c ∈ cs := by
  simp [extend]

lemma getElem?_extend_of_lt {ns : List Node} {cs : List Connection} {id : Nat}
    (h : id < m.nodes.size) : (m.extend ns cs).nodes[id]? = m.nodes[id]? := by
  simp [extend, Array.getElem?_append_left h]

lemma getElem?_extend_of_le {ns : List Node} {cs : List Connection} {id : Nat}
    (h : m.nodes.size ≤ id) : (m.extend ns cs).nodes[id]? = ns[id - m.nodes.size]? := by
  simp [extend, Array.getElem?_append_right h]

/-! ### Wires and registers -/

lemma hasWire_congr {m' : Module} {w : Wire} (h : m.nodes[w.node]? = m'.nodes[w.node]?) :
    m.hasWire w = m'.hasWire w := by
  unfold hasWire port? portsOf
  rw [h]

lemma isRegister_congr {m' : Module} {id : Nat} (h : m.nodes[id]? = m'.nodes[id]?) :
    m.isRegister id = m'.isRegister id := by
  unfold isRegister
  rw [h]

lemma node_lt_of_hasWire {w : Wire} (h : m.hasWire w = true) : w.node < m.nodes.size := by
  by_contra hge
  unfold hasWire port? portsOf at h
  rw [Array.getElem?_eq_none (not_lt.mp hge)] at h
  simp at h

lemma hasWire_extend {ns : List Node} {cs : List Connection} {w : Wire}
    (h : m.hasWire w = true) : (m.extend ns cs).hasWire w = true := by
  rw [← h]
  exact hasWire_congr (getElem?_extend_of_lt (node_lt_of_hasWire h))

lemma isRegister_extend {ns : List Node} {cs : List Connection} {id : Nat}
    (h : id < m.nodes.size) : (m.extend ns cs).isRegister id = m.isRegister id :=
  isRegister_congr (getElem?_extend_of_lt h)

/-! ### Connections -/

lemma WellWired.eq_of_driven_eq (h : m.WellWired) {a b : Connection} (ha : a ∈ m.connections)
    (hb : b ∈ m.connections) (heq : a.driven = b.driven) : a = b := by
  obtain ⟨i, hi, rfl⟩ := List.getElem_of_mem (Array.mem_toList_iff.mpr ha)
  obtain ⟨j, hj, rfl⟩ := List.getElem_of_mem (Array.mem_toList_iff.mpr hb)
  have hpair := List.pairwise_iff_getElem.mp h.single
  rcases lt_trichotomy i j with hij | rfl | hij
  · exact absurd heq (hpair i j hi hj hij)
  · rfl
  · exact absurd heq.symm (hpair j i hj hi hij)

lemma driver?_eq_none_iff {w : Wire} :
    m.driver? w = none ↔ ∀ c ∈ m.connections, c.driven ≠ w := by
  simp [driver?, Array.find?_eq_none]

lemma WellWired.driver?_eq_some_iff (h : m.WellWired) {d w : Wire} :
    m.driver? w = some d ↔ ⟨d, w⟩ ∈ m.connections := by
  constructor
  · intro hd
    obtain ⟨c, hc, rfl⟩ := Option.map_eq_some_iff.mp hd
    have hdriven : c.driven = w := by simpa using Array.find?_some hc
    rw [← hdriven]
    exact Array.mem_of_find?_eq_some hc
  · intro hmem
    cases hd : m.driver? w with
    | none => exact absurd rfl (driver?_eq_none_iff.mp hd _ hmem)
    | some d' =>
      obtain ⟨c, hc, rfl⟩ := Option.map_eq_some_iff.mp hd
      have hdriven : c.driven = w := by simpa using Array.find?_some hc
      rw [h.eq_of_driven_eq (Array.mem_of_find?_eq_some hc) hmem hdriven]

lemma connect_eq_ok {d w : Wire} (hd : m.hasWire d = true) (hw : m.hasWire w = true)
    (hp : d.isProduced = true) (hc : w.isProduced = false)
    (hfree : ∀ c ∈ m.connections, c.driven ≠ w) :
    m.connect d w = .ok (m.extend [] [⟨d, w⟩]) := by
  unfold connect
  rw [driver?_eq_none_iff.mpr hfree]
  simp [hd, hw, hp, hc, extend]

/-- What a successful connection tells. -/
lemma of_connect_eq_ok {m' : Module} {d w : Wire} (h : m.connect d w = .ok m') :
    m' = m.extend [] [⟨d, w⟩] ∧ m.hasWire d = true ∧ m.hasWire w = true ∧
      d.isProduced = true ∧ w.isProduced = false ∧ ∀ c ∈ m.connections, c.driven ≠ w := by
  unfold connect at h
  split at h
  · cases h
  · next hcheck =>
    simp only [Bool.or_eq_true, Bool.not_eq_true', not_or, Bool.not_eq_true,
      Bool.not_eq_false] at hcheck
    split at h
    · cases h
    · next hfree =>
      cases h
      refine ⟨?_, hcheck.1.1.1, hcheck.1.1.2, hcheck.1.2, hcheck.2, driver?_eq_none_iff.mp hfree⟩
      simp [extend]

lemma wellWired_empty (i : Invocation) (inputs outputs : List Port) :
    (empty i inputs outputs).WellWired := by
  refine ⟨?_, ?_, ?_, ?_, ?_⟩ <;> simp [empty]

/-- What connections have to satisfy to be added to a well wired module. -/
structure Addable (m : Module) (ns : List Node) (cs : List Connection) : Prop where
  hasDriver : ∀ c ∈ cs, (m.extend ns []).hasWire c.driver = true
  hasDriven : ∀ c ∈ cs, (m.extend ns []).hasWire c.driven = true
  produced : ∀ c ∈ cs, c.driver.isProduced = true
  consumed : ∀ c ∈ cs, c.driven.isProduced = false
  single : cs.Pairwise fun a b => a.driven ≠ b.driven
  fresh : ∀ c ∈ cs, ∀ a ∈ m.connections, a.driven ≠ c.driven

lemma Addable.tail {x : Connection} {cs : List Connection} (h : m.Addable [] (x :: cs)) :
    (m.extend [] [x]).Addable [] cs := by
  have hnodes : ∀ w, (m.extend [] []).hasWire w = ((m.extend [] [x]).extend [] []).hasWire w := by
    intro w
    exact hasWire_congr (by simp [extend])
  obtain ⟨hx, hcs⟩ := List.pairwise_cons.mp h.single
  refine ⟨?_, ?_, ?_, ?_, hcs, ?_⟩
  · intro c hc
    rw [← hnodes]
    exact h.hasDriver c (List.mem_cons_of_mem _ hc)
  · intro c hc
    rw [← hnodes]
    exact h.hasDriven c (List.mem_cons_of_mem _ hc)
  · intro c hc
    exact h.produced c (List.mem_cons_of_mem _ hc)
  · intro c hc
    exact h.consumed c (List.mem_cons_of_mem _ hc)
  · intro c hc a ha
    rcases mem_extend.mp ha with ha | ha
    · exact h.fresh c (List.mem_cons_of_mem _ hc) a ha
    · obtain rfl := List.mem_singleton.mp ha
      exact hx c hc

/-- Steps that make connections, one after the other. -/
lemma foldlM_connect {ε β : Type} {step : Module → β → Except ε Module} {link : β → Connection}
    {xs : List β}
    (hstep : ∀ m m', ∀ x ∈ xs, m.connect (link x).driver (link x).driven = .ok m' →
      step m x = .ok m')
    (hadd : m.Addable [] (xs.map link)) :
    xs.foldlM step m = .ok (m.extend [] (xs.map link)) := by
  induction xs generalizing m with
  | nil => simp [pure, Except.pure]
  | cons x xs ih =>
    have hconnect : m.connect (link x).driver (link x).driven = .ok (m.extend [] [link x]) := by
      have hx : link x ∈ (x :: xs).map link := by simp
      apply connect_eq_ok
      · simpa using hadd.hasDriver _ hx
      · simpa using hadd.hasDriven _ hx
      · exact hadd.produced _ hx
      · exact hadd.consumed _ hx
      · exact hadd.fresh _ hx
    rw [List.foldlM_cons, hstep m _ x (by simp) hconnect]
    have hrest := ih (fun m m' y hy => hstep m m' y (by simp [hy])) hadd.tail
    rw [extend_extend] at hrest
    exact hrest

lemma WellWired.extend (h : m.WellWired) {ns : List Node} {cs : List Connection}
    (hadd : m.Addable ns cs) : (m.extend ns cs).WellWired := by
  have hwire : ∀ w, (m.extend ns []).hasWire w = true → (m.extend ns cs).hasWire w = true := by
    intro w hw
    rw [← hw]
    exact hasWire_congr rfl
  refine ⟨?_, ?_, ?_, ?_, ?_⟩
  · intro c hc
    rcases mem_extend.mp hc with hc | hc
    · exact hasWire_extend (h.hasDriver c hc)
    · exact hwire _ (hadd.hasDriver c hc)
  · intro c hc
    rcases mem_extend.mp hc with hc | hc
    · exact hasWire_extend (h.hasDriven c hc)
    · exact hwire _ (hadd.hasDriven c hc)
  · intro c hc
    rcases mem_extend.mp hc with hc | hc
    · exact h.produced c hc
    · exact hadd.produced c hc
  · intro c hc
    rcases mem_extend.mp hc with hc | hc
    · exact h.consumed c hc
    · exact hadd.consumed c hc
  · have hlist : (m.extend ns cs).connections.toList = m.connections.toList ++ cs := by
      simp [Module.extend]
    rw [hlist, List.pairwise_append]
    refine ⟨h.single, hadd.single, ?_⟩
    intro a ha c hc
    exact hadd.fresh c hc a (Array.mem_toList_iff.mp ha)

lemma WellWired.addNode (h : m.WellWired) (n : Node) : (m.addNode n).WellWired := by
  rw [addNode_eq_extend]
  apply h.extend
  refine ⟨?_, ?_, ?_, ?_, List.Pairwise.nil, ?_⟩ <;> simp

lemma WellWired.connect (h : m.WellWired) {m' : Module} {d w : Wire}
    (hconnect : m.connect d w = .ok m') : m'.WellWired := by
  obtain ⟨rfl, hd, hw, hp, hc, hfree⟩ := of_connect_eq_ok hconnect
  apply h.extend
  refine ⟨?_, ?_, ?_, ?_, List.pairwise_singleton _ _, ?_⟩
  · simpa using hd
  · simpa using hw
  · simpa using hp
  · simpa using hc
  · simpa using hfree

end Module

end NetlistCompiler
