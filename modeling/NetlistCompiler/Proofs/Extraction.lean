import NetlistCompiler.Proofs.DistinctLists
import NetlistCompiler.Proofs.RegisterMoves
import NetlistCompiler.Proofs.Tracing

/-!
# The circuit of a well wired module

The vertices of the circuit are the nodes that are no registers, in order, so the vertex of a node
is its rank among them. The edges are the bundles of traced connections with one key, and they
stand in the strict order of their keys.
-/

namespace NetlistCompiler

namespace TracedConnection

lemma keyLE_iff {a b : Nat × Nat × Nat} :
    keyLE a b = true ↔
      a.1 < b.1 ∨ a.1 = b.1 ∧ (a.2.1 < b.2.1 ∨ a.2.1 = b.2.1 ∧ a.2.2 ≤ b.2.2) := by
  simp [keyLE]

lemma keyLE_antisymm (a b : Nat × Nat × Nat) (hab : keyLE a b = true) (hba : keyLE b a = true) :
    a = b := by
  rw [keyLE_iff] at hab hba
  ext <;> omega

/-- The keys of traced connections, each once and in order. -/
def keys (ts : List TracedConnection) : List (Nat × Nat × Nat) :=
  ((ts.map key).mergeSort keyLE).eraseReps

lemma mem_keys {ts : List TracedConnection} {k : Nat × Nat × Nat} :
    k ∈ keys ts ↔ ∃ t ∈ ts, t.key = k := by
  rw [keys, mem_eraseReps, List.mem_mergeSort, List.mem_map]

/-- The strict order of keys. -/
def keyLT (a b : Nat × Nat × Nat) : Prop :=
  keyLE a b = true ∧ a ≠ b

lemma keyLT_iff {a b : Nat × Nat × Nat} :
    keyLT a b ↔ a.1 < b.1 ∨ a.1 = b.1 ∧ (a.2.1 < b.2.1 ∨ a.2.1 = b.2.1 ∧ a.2.2 < b.2.2) := by
  obtain ⟨a₁, a₂, a₃⟩ := a
  obtain ⟨b₁, b₂, b₃⟩ := b
  simp only [keyLT, keyLE_iff, ne_eq, Prod.mk.injEq]
  omega

lemma keys_sorted (ts : List TracedConnection) : (keys ts).Pairwise keyLT := by
  apply pairwise_eraseReps keyLE_antisymm
  apply List.pairwise_mergeSort
  · intro a b d hab hbd
    rw [keyLE_iff] at hab hbd ⊢
    omega
  · intro a b
    rw [Bool.or_eq_true, keyLE_iff, keyLE_iff]
    omega

lemma nodup_of_sorted {l : List (Nat × Nat × Nat)} (h : l.Pairwise keyLT) : l.Nodup :=
  h.imp fun hab => hab.2

/-- The keys are determined by their order and by which ones there are. -/
lemma keys_eq {ts : List TracedConnection} {l : List (Nat × Nat × Nat)} (hsorted : l.Pairwise keyLT)
    (hmem : ∀ k, k ∈ l ↔ ∃ t ∈ ts, t.key = k) : keys ts = l := by
  have hperm : (keys ts).Perm l := by
    rw [List.perm_ext_iff_of_nodup (nodup_of_sorted (keys_sorted ts)) (nodup_of_sorted hsorted)]
    intro k
    rw [mem_keys, hmem]
  apply hperm.eq_of_pairwise _ (keys_sorted ts) hsorted
  intro a b _ _ hab hba
  exact keyLE_antisymm a b hab.1 hba.1

end TracedConnection

/-! ### Ranks -/

lemma countP_lt_of_getElem? {l : List Nat} (h : l.Pairwise (· < ·)) {i x : Nat}
    (hx : l[i]? = some x) : l.countP (· < x) = i := by
  induction l generalizing i with
  | nil => simp at hx
  | cons a l ih =>
    obtain ⟨ha, hl⟩ := List.pairwise_cons.mp h
    cases i with
    | zero =>
      obtain rfl : a = x := by simpa using hx
      rw [List.countP_eq_zero]
      intro b hb
      rcases List.mem_cons.mp hb with rfl | hb
      · simp
      · simpa using (ha b hb).le
    | succ i =>
      rw [List.getElem?_cons_succ] at hx
      have hax : a < x := ha x (List.mem_of_getElem? hx)
      rw [List.countP_cons, ih hl hx]
      simp [hax]

namespace Module

variable {m : Module}

/-- The number of nodes before a node that are no registers. -/
def rank (m : Module) (id : Nat) : Nat :=
  m.combinationalNodes.countP (· < id)

lemma mem_combinationalNodes {id : Nat} :
    id ∈ m.combinationalNodes ↔ id < m.nodes.size ∧ m.isRegister id = false := by
  unfold combinationalNodes nodesWhere isRegister
  rw [List.mem_filter, List.mem_range]
  apply and_congr_right
  intro hid
  simp [Array.getElem?_eq_getElem hid]

lemma combinationalNodes_sorted (m : Module) : m.combinationalNodes.Pairwise (· < ·) :=
  List.pairwise_lt_range.filter _

lemma getElem?_rank {id : Nat} (h : id ∈ m.combinationalNodes) :
    m.combinationalNodes[m.rank id]? = some id := by
  obtain ⟨i, hi, hid⟩ := List.getElem_of_mem h
  have hx : m.combinationalNodes[i]? = some id := by rw [List.getElem?_eq_getElem hi, hid]
  rw [rank, countP_lt_of_getElem? m.combinationalNodes_sorted hx, hx]

lemma rank_lt_length {id : Nat} (h : id ∈ m.combinationalNodes) :
    m.rank id < m.combinationalNodes.length :=
  (List.getElem?_eq_some_iff.mp (getElem?_rank h)).1

lemma exists_rank_eq {i : Nat} (h : i < m.combinationalNodes.length) :
    ∃ id ∈ m.combinationalNodes, m.rank id = i :=
  ⟨_, List.getElem_mem h,
    countP_lt_of_getElem? m.combinationalNodes_sorted (List.getElem?_eq_getElem h)⟩

lemma rank_inj {a b : Nat} (ha : a ∈ m.combinationalNodes) (hb : b ∈ m.combinationalNodes)
    (h : m.rank a = m.rank b) : a = b := by
  have hget := getElem?_rank ha
  rw [h, getElem?_rank hb] at hget
  exact (Option.some_inj.mp hget).symm

lemma rank_mono {a b : Nat} (h : a ≤ b) : m.rank a ≤ m.rank b := by
  apply List.countP_mono_left
  intro x _ hx
  simp only [decide_eq_true_eq] at hx ⊢
  omega

lemma rank_lt_rank {a b : Nat} (ha : a ∈ m.combinationalNodes) (hb : b ∈ m.combinationalNodes)
    (h : a < b) : m.rank a < m.rank b := by
  apply lt_of_le_of_ne (rank_mono h.le)
  intro heq
  exact h.ne (rank_inj ha hb heq)

lemma findIdx?_combinationalNodes {id : Nat} (h : id ∈ m.combinationalNodes) :
    m.combinationalNodes.findIdx? (· == id) = some (m.rank id) := by
  have hget := getElem?_rank h
  rw [List.findIdx?_eq_some_iff_getElem]
  obtain ⟨hlt, heq⟩ := List.getElem?_eq_some_iff.mp hget
  refine ⟨hlt, by simp [heq], ?_⟩
  intro j hj
  have hbefore := List.pairwise_iff_getElem.mp m.combinationalNodes_sorted j _ (hj.trans hlt) hlt hj
  rw [heq] at hbefore
  simpa using hbefore.ne

lemma vertexOf_eq_ok {id : Nat} (h : id ∈ m.combinationalNodes) :
    m.vertexOf id = .ok (m.rank id) := by
  unfold vertexOf List.idxOf?
  rw [findIdx?_combinationalNodes h]

/-! ### The graph -/

/-- The vertex of a node. -/
def vertexAt (m : Module) (delay : Node → Int) (id : Nat) : Vertex Nat :=
  ⟨(m.nodes[id]?.map delay).getD 0, id⟩

/-- The edge of all traced connections with a key. -/
def bundle (m : Module) (ts : List TracedConnection) (k : Nat × Nat × Nat) :
    Edge (List Connection) :=
  ⟨m.rank k.1, m.rank k.2.1, k.2.2,
    (ts.filter fun t => t.key == k).map TracedConnection.connection⟩

/-- A graph has the nodes that are no registers as vertices and the bundles of traced connections
as edges. -/
structure HasGraph (m : Module) (delay : Node → Int) (ts : List TracedConnection)
    (g : WeightedGraph Nat (List Connection)) : Prop where
  vertices : g.vertices.toList = m.combinationalNodes.map (m.vertexAt delay)
  edges : g.edges.toList = (TracedConnection.keys ts).map (m.bundle ts)

lemma foldl_addVertex (delay : Node → Int) (ids : List Nat)
    (g : WeightedGraph Nat (List Connection)) :
    (ids.foldl (fun g id => g.addVertex ((m.nodes[id]?.map delay).getD 0) id) g).vertices.toList =
        g.vertices.toList ++ ids.map (m.vertexAt delay) ∧
      (ids.foldl (fun g id => g.addVertex ((m.nodes[id]?.map delay).getD 0) id) g).edges =
        g.edges := by
  induction ids generalizing g with
  | nil => simp
  | cons id ids ih =>
    obtain ⟨hv, he⟩ := ih (g.addVertex ((m.nodes[id]?.map delay).getD 0) id)
    rw [List.foldl_cons, hv, he]
    simp [WeightedGraph.addVertex, vertexAt]

lemma addBundle_eq_ok (ts : List TracedConnection) {g : WeightedGraph Nat (List Connection)}
    {k : Nat × Nat × Nat} (hsize : g.vertices.size = m.combinationalNodes.length)
    (hsource : k.1 ∈ m.combinationalNodes) (hsink : k.2.1 ∈ m.combinationalNodes) :
    ∃ g', m.addBundle ts g k = .ok g' ∧ g'.vertices = g.vertices ∧
      g'.edges = g.edges.push (m.bundle ts k) := by
  have hlt : m.rank k.1 < g.vertices.size ∧ m.rank k.2.1 < g.vertices.size := by
    rw [hsize]
    exact ⟨rank_lt_length hsource, rank_lt_length hsink⟩
  unfold addBundle
  rw [vertexOf_eq_ok hsource, vertexOf_eq_ok hsink]
  simp only [bind, Except.bind, WeightedGraph.addEdge?]
  rw [dif_pos hlt]
  exact ⟨_, rfl, rfl, rfl⟩

lemma foldlM_addBundle (ts : List TracedConnection) {ks : List (Nat × Nat × Nat)}
    (hks : ∀ k ∈ ks, k.1 ∈ m.combinationalNodes ∧ k.2.1 ∈ m.combinationalNodes)
    {g : WeightedGraph Nat (List Connection)}
    (hsize : g.vertices.size = m.combinationalNodes.length) :
    ∃ g', ks.foldlM (m.addBundle ts) g = .ok g' ∧ g'.vertices = g.vertices ∧
      g'.edges.toList = g.edges.toList ++ ks.map (m.bundle ts) := by
  induction ks generalizing g with
  | nil => exact ⟨g, rfl, rfl, by simp⟩
  | cons k ks ih =>
    obtain ⟨hsource, hsink⟩ := hks k (by simp)
    obtain ⟨g₁, hg₁, hv₁, he₁⟩ := addBundle_eq_ok ts hsize hsource hsink
    obtain ⟨g₂, hg₂, hv₂, he₂⟩ := ih (fun k' hk' => hks k' (by simp [hk'])) (hv₁ ▸ hsize)
    refine ⟨g₂, ?_, hv₂.trans hv₁, ?_⟩
    · rw [List.foldlM_cons, hg₁]
      exact hg₂
    · rw [he₂, he₁]
      simp

/-- A connection that carries data from one node to another, neither of them a register. -/
structure IsDataLink (m : Module) (x : Connection) : Prop where
  hasDriver : m.hasWire x.driver = true
  hasDriven : m.hasWire x.driven = true
  produced : x.driver.isProduced = true
  consumed : x.driven.isProduced = false
  driver_combinational : m.isRegister x.driver.node = false
  driven_combinational : m.isRegister x.driven.node = false
  data : ∃ leaf, x.driven.slot = .data leaf

lemma IsDataLink.driver_mem {x : Connection} (h : m.IsDataLink x) :
    x.driver.node ∈ m.combinationalNodes :=
  mem_combinationalNodes.mpr ⟨node_lt_of_hasWire h.hasDriver, h.driver_combinational⟩

lemma IsDataLink.driven_mem {x : Connection} (h : m.IsDataLink x) :
    x.driven.node ∈ m.combinationalNodes :=
  mem_combinationalNodes.mpr ⟨node_lt_of_hasWire h.hasDriven, h.driven_combinational⟩

lemma isDataPath_iff {c : Connection} :
    m.isDataPath c = true ↔
      (∃ leaf, c.driven.slot = .data leaf) ∧ m.isRegister c.driven.node = false := by
  unfold isDataPath
  cases c.driven.slot <;> simp

lemma exists_traced {ts : List TracedConnection}
    (hpaths : List.Forall₂ m.TracesTo (m.connections.toList.filter m.isDataPath) ts)
    {x : Connection} (hx : x ∈ m.connections) (hpath : m.isDataPath x = true) :
    ∃ t ∈ ts, m.TracesTo x t := by
  have hmem : x ∈ m.connections.toList.filter m.isDataPath :=
    List.mem_filter.mpr ⟨Array.mem_toList_iff.mpr hx, hpath⟩
  obtain ⟨t, ht, hxt⟩ := exists_mem_of_forall₂ hpaths.flip hmem
  exact ⟨t, ht, hxt⟩

lemma exists_connection {ts : List TracedConnection}
    (hpaths : List.Forall₂ m.TracesTo (m.connections.toList.filter m.isDataPath) ts)
    {t : TracedConnection} (ht : t ∈ ts) :
    ∃ x ∈ m.connections, m.isDataPath x = true ∧ m.TracesTo x t := by
  obtain ⟨x, hx, hxt⟩ := exists_mem_of_forall₂ hpaths ht
  obtain ⟨hmem, hpath⟩ := List.mem_filter.mp hx
  exact ⟨x, Array.mem_toList_iff.mp hmem, hpath, hxt⟩

lemma WellWired.isDataLink (h : m.WellWired) {ts : List TracedConnection}
    (hts : m.tracedConnections? = some ts) {t : TracedConnection} (ht : t ∈ ts) :
    m.IsDataLink t.connection := by
  obtain ⟨c, hmem, hpath, hct⟩ := exists_connection (tracedConnections?_eq_some_iff.mp hts) ht
  obtain ⟨hdata, hdriven⟩ := isDataPath_iff.mp hpath
  obtain ⟨hdriver, hproduced⟩ := hct.traces.wire_source h (h.hasDriver c hmem) (h.produced c hmem)
  refine ⟨hdriver, ?_, hproduced, ?_, hct.traces.isRegister_source, ?_, ?_⟩
  · rw [hct.driven, h.hasDriven c hmem]
  · rw [hct.driven, h.consumed c hmem]
  · rw [hct.driven, hdriven]
  · rw [hct.driven]
    exact hdata

lemma WellWired.traced_single (h : m.WellWired) {ts : List TracedConnection}
    (hts : m.tracedConnections? = some ts) :
    ts.Pairwise fun s t => s.connection.driven ≠ t.connection.driven := by
  have hdriven : ts.map (fun t => t.connection.driven) =
      (m.connections.toList.filter m.isDataPath).map Connection.driven := by
    rw [← List.forall₂_eq_eq_eq, List.forall₂_map_left_iff, List.forall₂_map_right_iff]
    exact (tracedConnections?_eq_some_iff.mp hts).flip.imp fun t c hct => hct.driven
  apply List.pairwise_map.mp
  rw [hdriven, List.pairwise_map]
  exact h.single.filter _

/-! ### The circuit -/

lemma WellWired.exists_hasGraph (h : m.WellWired) (delay : Node → Int) {ts : List TracedConnection}
    (hts : m.tracedConnections? = some ts) :
    ∃ g, (TracedConnection.keys ts).foldlM (m.addBundle ts) (m.circuitVertices delay) = .ok g ∧
      m.HasGraph delay ts g := by
  obtain ⟨hv, he⟩ := foldl_addVertex (m := m) delay m.combinationalNodes .empty
  have hks : ∀ k ∈ TracedConnection.keys ts,
      k.1 ∈ m.combinationalNodes ∧ k.2.1 ∈ m.combinationalNodes := by
    intro k hk
    obtain ⟨t, ht, rfl⟩ := TracedConnection.mem_keys.mp hk
    exact ⟨(h.isDataLink hts ht).driver_mem, (h.isDataLink hts ht).driven_mem⟩
  have hsize : (m.circuitVertices delay).vertices.size = m.combinationalNodes.length := by
    rw [← Array.length_toList, circuitVertices, hv]
    simp [WeightedGraph.empty]
  obtain ⟨g, hg, hgv, hge⟩ := foldlM_addBundle ts hks hsize
  refine ⟨g, hg, ?_, ?_⟩
  · rw [hgv, circuitVertices, hv]
    simp [WeightedGraph.empty]
  · rw [hge, circuitVertices, he]
    simp [WeightedGraph.empty]

lemma circuit?_eq_none {delay : Node → Int} {name : String} (hts : m.tracedConnections? = none) :
    m.circuit? delay name = .ok none := by
  unfold circuit?
  rw [hts]
  rfl

lemma WellWired.circuit?_eq (h : m.WellWired) (delay : Node → Int)
    {ts : List TracedConnection} (hts : m.tracedConnections? = some ts) :
    ∃ g, m.HasGraph delay ts g ∧ ∀ name, m.circuit? delay name =
      match Circuit.ofGraph g with
      | .ok c => .ok (some c)
      | .error e => .error (.ofGraph name e) := by
  obtain ⟨g, hg, hgraph⟩ := h.exists_hasGraph delay hts
  refine ⟨g, hgraph, ?_⟩
  intro name
  unfold circuit?
  rw [hts]
  change (TracedConnection.keys ts).foldlM (m.addBundle ts) (m.circuitVertices delay) >>= _ = _
  rw [hg]
  cases hofGraph : Circuit.ofGraph g with
  | ok c => simp only [bind, Except.bind, hofGraph]; rfl
  | error e => simp only [bind, Except.bind, hofGraph]; rfl

/-- The circuit that is found consists of the bundles of all traced connections. -/
theorem WellWired.of_circuit? (h : m.WellWired) {delay : Node → Int} {name : String}
    {c : ModuleCircuit} (hc : m.circuit? delay name = .ok (some c)) :
    ∃ ts, m.tracedConnections? = some ts ∧ m.HasGraph delay ts c.graph := by
  cases hts : m.tracedConnections? with
  | none =>
    rw [circuit?_eq_none hts] at hc
    cases hc
  | some ts =>
    obtain ⟨g, hgraph, heq⟩ := h.circuit?_eq delay hts
    rw [heq name] at hc
    cases hofGraph : Circuit.ofGraph g with
    | error e =>
      rw [hofGraph] at hc
      cases hc
    | ok c' =>
      rw [hofGraph] at hc
      cases hc
      exact ⟨ts, rfl, Circuit.graph_of_ofGraph hofGraph ▸ hgraph⟩

/-- A circuit is found if all connections can be traced and the bundles make a circuit. -/
theorem WellWired.exists_circuit? (h : m.WellWired) {delay : Node → Int}
    {ts : List TracedConnection} (hts : m.tracedConnections? = some ts)
    (hvalid : ∀ g, m.HasGraph delay ts g → (∀ v ∈ g.vertices, 0 ≤ v.weight) ∧
      (∀ e ∈ g.edges, 0 ≤ e.weight) ∧ g.Acyclic fun e => e.weight = 0) :
    ∃ c, (∀ name, m.circuit? delay name = .ok (some c)) ∧ m.HasGraph delay ts c.graph := by
  obtain ⟨g, hgraph, heq⟩ := h.circuit?_eq delay hts
  obtain ⟨hv, he, ha⟩ := hvalid g hgraph
  obtain ⟨c, hc, rfl⟩ := Circuit.exists_ofGraph hv he ha
  refine ⟨c, ?_, hgraph⟩
  intro name
  rw [heq name, hc]

end Module

end NetlistCompiler
