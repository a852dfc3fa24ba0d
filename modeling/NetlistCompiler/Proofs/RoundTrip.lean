import NetlistCompiler.Proofs.Reconstruction

/-!
# From modules to circuits and back

The circuit of a module rebuilt from a retimed circuit is that retimed circuit again, with every
node replaced by its rank. Moving registers shifts the weights of all edges between two vertices
alike, so the edges keep their order, and with it the order of the bundles.
-/

namespace NetlistCompiler

lemma filter_flatMap_of_key {α β γ : Type} [BEq γ] [LawfulBEq γ] {f : α → γ} {h : β → γ}
    {g : α → List β} {l : List α} (hg : ∀ a ∈ l, ∀ b ∈ g a, h b = f a)
    (hl : l.Pairwise fun a a' => f a ≠ f a') {a : α} (ha : a ∈ l) :
    (l.flatMap g).filter (fun b => h b == f a) = g a := by
  induction l with
  | nil => simp at ha
  | cons x l ih =>
    obtain ⟨hx, hl⟩ := List.pairwise_cons.mp hl
    have hgl : ∀ y ∈ l, ∀ b ∈ g y, h b = f y := fun y hy => hg y (List.mem_cons_of_mem _ hy)
    rw [List.flatMap_cons, List.filter_append]
    rcases List.mem_cons.mp ha with rfl | ha
    · have hself : (g a).filter (fun b => h b == f a) = g a := by
        rw [List.filter_eq_self]
        intro b hb
        simp [hg a (by simp) b hb]
      have hrest : (l.flatMap g).filter (fun b => h b == f a) = [] := by
        rw [List.filter_eq_nil_iff]
        intro b hb
        obtain ⟨y, hy, hb⟩ := List.mem_flatMap.mp hb
        simpa [hgl y hy b hb] using (hx y hy).symm
      rw [hself, hrest, List.append_nil]
    · have hfirst : (g x).filter (fun b => h b == f a) = [] := by
        rw [List.filter_eq_nil_iff]
        intro b hb
        simpa [hg x (by simp) b hb] using hx a ha
      rw [hfirst, ih hgl hl ha, List.nil_append]

namespace WeightedGraph

variable {ν ε : Type}

/-- A graph whose edges all have a counterpart in an acyclic graph is acyclic. -/
lemma Acyclic.of_counterparts {g g' : WeightedGraph ν ε} (ha : g.Acyclic fun e => e.weight = 0)
    (horder : g'.order = g.order)
    (hedges : ∀ e' ∈ g'.edges, ∃ e ∈ g.edges,
      e.source = e'.source ∧ e.sink = e'.sink ∧ e.weight = e'.weight) :
    g'.Acyclic fun e => e.weight = 0 := by
  have hwalk : ∀ u p v, g'.IsWalk u p v →
      ∃ q, g.IsWalk u q v ∧ List.Forall₂ (fun e' e => e.weight = e'.weight) p q := by
    intro u p v hp
    induction p generalizing u with
    | nil => exact ⟨[], ⟨hp.1, horder ▸ hp.2⟩, .nil⟩
    | cons e' p ih =>
      obtain ⟨he', hsource', hp⟩ := hp
      obtain ⟨e, he, hsource, hsink, hweight⟩ := hedges e' he'
      obtain ⟨q, hq, hpq⟩ := ih e'.sink hp
      exact ⟨e :: q, ⟨he, hsource.trans hsource', hsink ▸ hq⟩, .cons hweight hpq⟩
  intro v p hp hfree
  obtain ⟨q, hq, hpq⟩ := hwalk v p v hp
  have hnil : q = [] := by
    apply ha v q hq
    intro e he
    obtain ⟨e', he', hweight⟩ := exists_mem_of_forall₂ hpq he
    rw [hweight]
    exact hfree e' he'
  subst hnil
  exact List.forall₂_nil_right_iff.mp hpq

end WeightedGraph

namespace Module

variable {m : Module}

/-! ### Circuits in order -/

/-- The ends of an edge and its number of registers. -/
def edgeKey (e : Edge (List Connection)) : Nat × Nat × Nat :=
  (e.source, e.sink, e.weight.toNat)

/-- Edges in strict order, none of them empty, that join the vertices of the nodes their bundles
join. -/
structure OrderedEdges (m : Module) (es : List (Edge (List Connection))) : Prop where
  sorted : es.Pairwise fun e e' => TracedConnection.keyLT (edgeKey e) (edgeKey e')
  nonempty : ∀ e ∈ es, e.value ≠ []
  ends : ∀ e ∈ es, ∀ x ∈ e.value, m.rank x.driver.node = e.source ∧ m.rank x.driven.node = e.sink

lemma OrderedEdges.key_eq {es : List (Edge (List Connection))} (h : m.OrderedEdges es)
    {e : Edge (List Connection)} (he : e ∈ es) {t : TracedConnection} (ht : t ∈ m.edgeTraces e) :
    t.key = edgeKey e := by
  obtain ⟨x, hx, rfl⟩ := List.mem_map.mp ht
  obtain ⟨hsource, hsink⟩ := h.ends e he x hx
  simp [TracedConnection.key, rankConnection, rankWire, edgeKey, hsource, hsink]

lemma OrderedEdges.keys_eq {es : List (Edge (List Connection))} (h : m.OrderedEdges es) :
    TracedConnection.keys (es.flatMap m.edgeTraces) = es.map edgeKey := by
  apply TracedConnection.keys_eq
  · rw [List.pairwise_map]
    exact h.sorted
  · intro k
    constructor
    · intro hk
      obtain ⟨e, he, rfl⟩ := List.mem_map.mp hk
      obtain ⟨x, hx⟩ := List.exists_mem_of_ne_nil _ (h.nonempty e he)
      have ht : ⟨m.rankConnection x, e.weight.toNat⟩ ∈ m.edgeTraces e := List.mem_map_of_mem hx
      exact ⟨_, List.mem_flatMap.mpr ⟨e, he, ht⟩, h.key_eq he ht⟩
    · rintro ⟨t, ht, rfl⟩
      obtain ⟨e, he, ht⟩ := List.mem_flatMap.mp ht
      rw [h.key_eq he ht]
      exact List.mem_map_of_mem he

/-- An edge with the nodes of its bundle replaced by their ranks. -/
def rankEdge (m : Module) (e : Edge (List Connection)) : Edge (List Connection) :=
  ⟨e.source, e.sink, e.weight, e.value.map m.rankConnection⟩

/-- A vertex with its node replaced by the rank. -/
def rankVertex (m : Module) (v : Vertex Nat) : Vertex Nat :=
  ⟨v.weight, m.rank v.value⟩

lemma OrderedEdges.bundle_eq {es : List (Edge (List Connection))} (h : m.OrderedEdges es)
    {r : Module} (hnodes : m.KeepsNodes r) {e : Edge (List Connection)} (he : e ∈ es)
    (hweight : 0 ≤ e.weight) (hlinks : ∀ x ∈ e.value, m.IsDataLink x) :
    r.bundle (es.flatMap m.edgeTraces) (edgeKey e) = m.rankEdge e := by
  have hkeys : es.Pairwise fun e e' => edgeKey e ≠ edgeKey e' := h.sorted.imp fun hlt => hlt.2
  have hfilter := filter_flatMap_of_key (fun e he t ht => h.key_eq he ht) hkeys he
  obtain ⟨x, hx⟩ := List.exists_mem_of_ne_nil _ (h.nonempty e he)
  obtain ⟨hsource, hsink⟩ := h.ends e he x hx
  have hsource' : r.rank e.source = e.source := by
    rw [← hsource]
    exact hnodes.rank_eq (rank_lt_length (hlinks x hx).driver_mem)
  have hsink' : r.rank e.sink = e.sink := by
    rw [← hsink]
    exact hnodes.rank_eq (rank_lt_length (hlinks x hx).driven_mem)
  unfold bundle rankEdge
  rw [hfilter]
  simp only [edgeKey, edgeTraces, List.map_map, Edge.mk.injEq]
  exact ⟨hsource', hsink', Int.toNat_of_nonneg hweight, rfl⟩

lemma map_rank_combinationalNodes (m : Module) :
    m.combinationalNodes.map m.rank = List.range m.combinationalNodes.length := by
  apply List.ext_getElem
  · simp
  · intro i hi hi'
    have hlt : i < m.combinationalNodes.length := by simpa using hi'
    simp only [List.getElem_map, List.getElem_range]
    exact countP_lt_of_getElem? m.combinationalNodes_sorted (List.getElem?_eq_getElem hlt)

/-- The graph of a module rebuilt from a circuit with ordered edges. -/
lemma IsRebuilt.graph_eq {c : ModuleCircuit} {r : Module} (h : m.IsRebuilt c r)
    (hc : m.Rebuildable c) (hes : m.OrderedEdges c.graph.edges.toList) {delay : Node → Int}
    (hv : c.graph.vertices.toList = m.combinationalNodes.map (m.vertexAt delay))
    {g : WeightedGraph Nat (List Connection)}
    (hg : r.HasGraph delay (c.graph.edges.toList.flatMap m.edgeTraces) g) :
    g.vertices = c.graph.vertices.map m.rankVertex ∧ g.edges = c.graph.edges.map m.rankEdge := by
  constructor
  · rw [← Array.toList_inj, hg.vertices, h.nodes.combinationalNodes, Array.toList_map, hv,
      ← map_rank_combinationalNodes, List.map_map, List.map_map]
    apply List.map_congr_left
    intro id hid
    simp [vertexAt, rankVertex, h.nodes.getElem?_rank hid]
  · rw [← Array.toList_inj, hg.edges, hes.keys_eq, Array.toList_map, List.map_map]
    apply List.map_congr_left
    intro e he
    exact hes.bundle_eq h.nodes he (c.registers_nonneg e (Array.mem_toList_iff.mp he))
      (hc.links e he)

/-- The circuit of a module rebuilt from a circuit with ordered edges. -/
lemma IsRebuilt.exists_circuit? {c : ModuleCircuit} {r : Module} (h : m.IsRebuilt c r)
    (hc : m.Rebuildable c) (hes : m.OrderedEdges c.graph.edges.toList) {delay : Node → Int}
    (hv : c.graph.vertices.toList = m.combinationalNodes.map (m.vertexAt delay)) :
    ∃ c'', (∀ name, r.circuit? delay name = .ok (some c'')) ∧
      c''.graph.vertices = c.graph.vertices.map m.rankVertex ∧
      c''.graph.edges = c.graph.edges.map m.rankEdge := by
  have hvalid : ∀ g, r.HasGraph delay (c.graph.edges.toList.flatMap m.edgeTraces) g →
      (∀ v ∈ g.vertices, 0 ≤ v.weight) ∧ (∀ e ∈ g.edges, 0 ≤ e.weight) ∧
        g.Acyclic fun e => e.weight = 0 := by
    intro g hg
    obtain ⟨hvertices, hedges⟩ := h.graph_eq hc hes hv hg
    refine ⟨?_, ?_, ?_⟩
    · intro v hv
      rw [hvertices] at hv
      obtain ⟨v', hv', rfl⟩ := Array.mem_map.mp hv
      exact c.delay_nonneg v' hv'
    · intro e he
      rw [hedges] at he
      obtain ⟨e', he', rfl⟩ := Array.mem_map.mp he
      exact c.registers_nonneg e' he'
    · apply c.acyclic.of_counterparts
      · simp [WeightedGraph.order, hvertices]
      · intro e he
        rw [hedges] at he
        obtain ⟨e', he', rfl⟩ := Array.mem_map.mp he
        exact ⟨e', he', rfl, rfl, rfl⟩
  obtain ⟨c'', hc'', hgraph⟩ := h.wired.exists_circuit? h.traced hvalid
  exact ⟨c'', hc'', h.graph_eq hc hes hv hgraph⟩

/-! ### Retimed circuits of a module -/

/-- The edge of all traced connections with a key, with as many registers as the lags give it. -/
def retimedBundle (m : Module) (ts : List TracedConnection) (lags : Array Int)
    (k : Nat × Nat × Nat) : Edge (List Connection) :=
  { m.bundle ts k with weight := Circuit.registersUnder lags (m.bundle ts k) }

/-- A circuit has the vertices of a module and its bundles as the lags leave them. -/
structure HasRetimedGraph (m : Module) (delay : Node → Int) (ts : List TracedConnection)
    (lags : Array Int) (c : ModuleCircuit) : Prop where
  vertices : c.graph.vertices.toList = m.combinationalNodes.map (m.vertexAt delay)
  edges : c.graph.edges.toList = (TracedConnection.keys ts).map (m.retimedBundle ts lags)

lemma HasRetimedGraph.weight_nonneg {delay : Node → Int} {ts : List TracedConnection}
    {lags : Array Int} {c : ModuleCircuit} (h : m.HasRetimedGraph delay ts lags c)
    {k : Nat × Nat × Nat} (hk : k ∈ TracedConnection.keys ts) :
    0 ≤ (m.retimedBundle ts lags k).weight := by
  apply c.registers_nonneg
  rw [← Array.mem_toList_iff, h.edges]
  exact List.mem_map_of_mem hk

/-- Under legal lags the circuit of a module is retimed. Its bundles fit in a port wherever they
get registers, if those of the original do. -/
lemma WellWired.exists_retimed (hwired : m.WellWired) {delay : Node → Int} {name : String}
    {c : ModuleCircuit} (hc : m.circuit? delay name = .ok (some c)) {lags : Array Int}
    (hlegal : c.isLegal lags = true) :
    ∃ ts c', m.tracedConnections? = some ts ∧ c.retime lags = .ok c' ∧
      m.HasRetimedGraph delay ts lags c' ∧
      ((∀ e ∈ c.graph.edges, 0 < Circuit.registersUnder lags e →
        e.value.length ≤ Shape.maxWidth) →
          ∀ e ∈ c'.graph.edges.toList, 0 < e.weight → e.value.length ≤ Shape.maxWidth) := by
  obtain ⟨ts, hts, hgraph⟩ := hwired.of_circuit? hc
  obtain ⟨c', hretime, hgraph', -⟩ := Circuit.retime_spec hlegal
  refine ⟨ts, c', hts, hretime, ⟨?_, ?_⟩, ?_⟩
  · rw [hgraph', WeightedGraph.reweight, hgraph.vertices]
  · rw [hgraph']
    simp only [WeightedGraph.reweight, Array.toList_map, hgraph.edges, List.map_map]
    rfl
  · intro hfits e he
    rw [Array.mem_toList_iff, hgraph'] at he
    obtain ⟨e', he', rfl⟩ := Circuit.mem_reweight.mp he
    exact hfits e' he'

lemma mem_bundle {ts : List TracedConnection} {k : Nat × Nat × Nat} {x : Connection} :
    x ∈ (m.bundle ts k).value ↔ ∃ t ∈ ts, t.key = k ∧ t.connection = x := by
  simp [bundle, and_assoc]

lemma bundles_single {ts : List TracedConnection}
    (hts : ts.Pairwise fun s t => s.connection.driven ≠ t.connection.driven)
    {ks : List (Nat × Nat × Nat)} (hks : ks.Nodup) :
    (ks.flatMap fun k => (m.bundle ts k).value).Pairwise fun a b => a.driven ≠ b.driven := by
  rw [List.pairwise_flatMap]
  constructor
  · intro k _
    exact List.pairwise_map.mpr (hts.filter _)
  · apply hks.imp
    intro k k' hkk' x hx y hy heq
    obtain ⟨s, hs, hsk, rfl⟩ := mem_bundle.mp hx
    obtain ⟨t, ht, htk, rfl⟩ := mem_bundle.mp hy
    -- one wire is driven by one connection only, which has one key
    have hst : s = t := List.inj_on_of_nodup_map (List.pairwise_map.mpr hts) hs ht heq
    exact hkk' (by rw [← hsk, ← htk, hst])

lemma WellWired.rebuildable (hwired : m.WellWired) {delay : Node → Int}
    {ts : List TracedConnection} (hts : m.tracedConnections? = some ts) {lags : Array Int}
    {c : ModuleCircuit} (hc : m.HasRetimedGraph delay ts lags c)
    (hfits : ∀ e ∈ c.graph.edges.toList, 0 < e.weight → e.value.length ≤ Shape.maxWidth) :
    m.Rebuildable c := by
  refine ⟨?_, ?_, ?_, hfits⟩
  · rw [hc.vertices, List.map_map]
    exact List.map_id _
  · intro e he x hx
    rw [hc.edges] at he
    obtain ⟨k, -, rfl⟩ := List.mem_map.mp he
    obtain ⟨t, ht, -, rfl⟩ := (mem_bundle (m := m)).mp hx
    exact hwired.isDataLink hts ht
  · rw [hc.edges, List.flatMap_map]
    exact bundles_single (m := m) (hwired.traced_single hts)
      (TracedConnection.nodup_of_sorted (TracedConnection.keys_sorted ts))

lemma WellWired.orderedEdges (hwired : m.WellWired) {delay : Node → Int}
    {ts : List TracedConnection} (hts : m.tracedConnections? = some ts) {lags : Array Int}
    {c : ModuleCircuit} (hc : m.HasRetimedGraph delay ts lags c) :
    m.OrderedEdges c.graph.edges.toList := by
  rw [hc.edges]
  refine ⟨?_, ?_, ?_⟩
  · rw [List.pairwise_map]
    apply (TracedConnection.keys_sorted ts).imp_of_mem
    intro k k' hk hk' hlt
    have hw := hc.weight_nonneg hk
    have hw' := hc.weight_nonneg hk'
    obtain ⟨t, ht, rfl⟩ := TracedConnection.mem_keys.mp hk
    obtain ⟨t', ht', rfl⟩ := TracedConnection.mem_keys.mp hk'
    have hlink := hwired.isDataLink hts ht
    have hlink' := hwired.isDataLink hts ht'
    rw [TracedConnection.keyLT_iff] at hlt ⊢
    rcases hlt with hlt | ⟨hsource, hlt | ⟨hsink, hlt⟩⟩
    · left
      exact rank_lt_rank hlink.driver_mem hlink'.driver_mem hlt
    · right
      refine ⟨congrArg m.rank hsource, ?_⟩
      left
      exact rank_lt_rank hlink.driven_mem hlink'.driven_mem hlt
    · right
      refine ⟨congrArg m.rank hsource, ?_⟩
      right
      refine ⟨congrArg m.rank hsink, ?_⟩
      -- edges between the same vertices gain the same number of registers
      simp only [retimedBundle, bundle, Circuit.registersUnder, edgeKey] at hw hw' ⊢
      rw [hsource, hsink] at hw ⊢
      omega
  · intro e he
    obtain ⟨k, hk, rfl⟩ := List.mem_map.mp he
    obtain ⟨t, ht, rfl⟩ := TracedConnection.mem_keys.mp hk
    have hmem : t.connection ∈ (m.bundle ts t.key).value := mem_bundle.mpr ⟨t, ht, rfl, rfl⟩
    exact List.ne_nil_of_mem hmem
  · intro e he x hx
    obtain ⟨k, -, rfl⟩ := List.mem_map.mp he
    obtain ⟨t, -, rfl, rfl⟩ := (mem_bundle (m := m)).mp hx
    exact ⟨rfl, rfl⟩

/-- Wherever an edge has registers they are wide enough for its bundle. -/
def BundlesFit (c : ModuleCircuit) : Prop :=
  ∀ e ∈ c.graph.edges, 0 < e.weight → e.value.length ≤ Shape.maxWidth

/-- A register that takes a stream, of which it passes the data on. -/
def heldStream : Module :=
  ⟨⟨"held_stream", [], []⟩, [⟨"x", .wire, .stream⟩], [.signal "y" .wire],
    #[⟨"x", .input, [], [⟨"x", .wire, .stream⟩]⟩,
      ⟨"held", .primitive (.register .wire), [⟨"next", .wire, .stream⟩], [.signal "current" .wire]⟩,
      ⟨"y", .output, [.signal "y" .wire], []⟩],
    #[⟨⟨0, .output, 0, .data 0⟩, ⟨1, .input, 0, .data 0⟩⟩,
      ⟨⟨1, .output, 0, .data 0⟩, ⟨2, .input, 0, .data 0⟩⟩,
      ⟨⟨0, .output, 0, .valid⟩, ⟨1, .input, 0, .valid⟩⟩]⟩

/-- That registers drive no handshake is not enough. -/
theorem rebuild_heldStream_fails : heldStream.WellWired ∧
    (∀ x ∈ heldStream.connections, isHandshake x = true →
      heldStream.isRegister x.driver.node = false) ∧
    ∃ c c', heldStream.circuit? (fun _ => 1) "held_stream" = .ok (some c) ∧
      c.isLegal #[0, 0] = true ∧ c.retime #[0, 0] = .ok c' ∧
      heldStream.rebuild c' = .error (.internal "connection references dropped node NodeId(1)") := by
  refine ⟨by refine ⟨?_, ?_, ?_, ?_, ?_⟩ <;> decide, by decide, ?_⟩
  have hrun : ((heldStream.circuit? (fun _ => 1) "held_stream").toOption.join.any fun c =>
      c.isLegal #[0, 0] && (c.retime #[0, 0]).toOption.any fun c' =>
        heldStream.rebuild c' matches
          .error (.internal "connection references dropped node NodeId(1)")) = true := by
    decide +kernel
  obtain ⟨c, hsome, hchecks⟩ := (Option.any_eq_true _ _).mp hrun
  obtain ⟨hlegal, hretimed⟩ := Bool.and_eq_true_iff.mp hchecks
  obtain ⟨c', hc', hrebuild⟩ := (Option.any_eq_true _ _).mp hretimed
  refine ⟨c, c', eq_ok_of_toOption (Option.join_eq_some_iff.mp hsome), hlegal,
    eq_ok_of_toOption hc', ?_⟩
  split at hrebuild
  · next herror => exact herror
  · cases hrebuild

end Module

end NetlistCompiler
