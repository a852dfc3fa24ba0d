import NetlistCompiler.Proofs.Extraction
import NetlistCompiler.Proofs.RegisterChains

/-!
# Rebuilding a module from a circuit

A circuit over the nodes of a well wired module, whose bundles carry data between nodes that are no
registers and drive no wire twice, can be rebuilt as a module. The nodes that are no registers stand
first, in their order, so each has its rank as its number. Every connection of a bundle comes back
behind as many registers as its edge has, in the order of the edges, and so do the handshakes.
-/

namespace NetlistCompiler

lemma map_some_filterMap {α β : Type} {f : α → Option β} {l : List α}
    (h : ∀ a ∈ l, (f a).isSome = true) : (l.filterMap f).map some = l.map f := by
  induction l with
  | nil => rfl
  | cons a l ih =>
    obtain ⟨b, hb⟩ := Option.isSome_iff_exists.mp (h a (by simp))
    rw [List.filterMap_cons_some hb, List.map_cons, List.map_cons, hb,
      ih fun a ha => h a (by simp [ha])]

namespace Module

variable {m : Module}

/-- The wire with its node replaced by the rank of the node. -/
def rankWire (m : Module) (w : Wire) : Wire :=
  { w with node := m.rank w.node }

/-- The connection with its nodes replaced by their ranks. -/
def rankConnection (m : Module) (x : Connection) : Connection :=
  ⟨m.rankWire x.driver, m.rankWire x.driven⟩

lemma rankWire_inj {a b : Wire} (ha : a.node ∈ m.combinationalNodes)
    (hb : b.node ∈ m.combinationalNodes) (h : m.rankWire a = m.rankWire b) : a = b := by
  obtain ⟨node, side, port, slot⟩ := a
  obtain ⟨node', side', port', slot'⟩ := b
  simp only [rankWire, Wire.mk.injEq] at h
  obtain ⟨hnode, rfl, rfl, rfl⟩ := h
  obtain rfl : node = node' := rank_inj ha hb hnode
  rfl

/-- The nodes that are no registers. -/
def keptNodes (m : Module) : List Node :=
  m.combinationalNodes.filterMap fun id => m.nodes[id]?

lemma isSome_of_mem_combinationalNodes {id : Nat} (h : id ∈ m.combinationalNodes) :
    (m.nodes[id]?).isSome = true := by
  simpa using (mem_combinationalNodes.mp h).1

lemma map_some_keptNodes (m : Module) :
    m.keptNodes.map some = m.combinationalNodes.map fun id => m.nodes[id]? :=
  map_some_filterMap fun _ hid => isSome_of_mem_combinationalNodes hid

lemma length_keptNodes (m : Module) : m.keptNodes.length = m.combinationalNodes.length := by
  simpa using congrArg List.length m.map_some_keptNodes

lemma getElem?_keptNodes {id : Nat} (h : id ∈ m.combinationalNodes) :
    m.keptNodes[m.rank id]? = m.nodes[id]? := by
  have hget := congrArg (fun l => l[m.rank id]?) m.map_some_keptNodes
  simp only [List.getElem?_map, getElem?_rank h, Option.map_some] at hget
  obtain ⟨n, hn, heq⟩ := Option.map_eq_some_iff.mp hget
  rw [hn, heq]

/-- A module whose nodes are those of `m` that are no registers, and then registers. -/
def KeepsNodes (m r : Module) : Prop :=
  ∃ ns : List Node, r.nodes.toList = m.keptNodes ++ ns ∧ ∀ n ∈ ns, n.IsPlainRegister

lemma KeepsNodes.extend {r : Module} (h : m.KeepsNodes r) {ns : List Node} {cs : List Connection}
    (hns : ∀ n ∈ ns, n.IsPlainRegister) : m.KeepsNodes (r.extend ns cs) := by
  obtain ⟨ns₀, hnodes, hregisters⟩ := h
  refine ⟨ns₀ ++ ns, ?_, ?_⟩
  · simp [Module.extend, hnodes]
  · intro n hn
    rcases List.mem_append.mp hn with hn | hn
    · exact hregisters n hn
    · exact hns n hn

lemma KeepsNodes.getElem?_rank {r : Module} (h : m.KeepsNodes r) {id : Nat}
    (hid : id ∈ m.combinationalNodes) : r.nodes[m.rank id]? = m.nodes[id]? := by
  obtain ⟨ns, hnodes, -⟩ := h
  have hlt : m.rank id < m.keptNodes.length := by
    rw [length_keptNodes]
    exact rank_lt_length hid
  rw [← Array.getElem?_toList, hnodes, List.getElem?_append_left hlt, getElem?_keptNodes hid]

lemma KeepsNodes.hasWire {r : Module} (h : m.KeepsNodes r) {w : Wire}
    (hw : w.node ∈ m.combinationalNodes) : r.hasWire (m.rankWire w) = m.hasWire w := by
  unfold Module.hasWire port? portsOf rankWire
  rw [h.getElem?_rank hw]

lemma KeepsNodes.isRegister {r : Module} (h : m.KeepsNodes r) {id : Nat}
    (hid : id ∈ m.combinationalNodes) : r.isRegister (m.rank id) = false := by
  unfold Module.isRegister
  rw [h.getElem?_rank hid]
  exact (mem_combinationalNodes.mp hid).2

lemma KeepsNodes.mem_combinationalNodes {r : Module} (h : m.KeepsNodes r) {i : Nat} :
    i ∈ r.combinationalNodes ↔ i < m.combinationalNodes.length := by
  rw [Module.mem_combinationalNodes]
  constructor
  · rintro ⟨hlt, hnode⟩
    by_contra hge
    obtain ⟨ns, hnodes, hregisters⟩ := h
    have hget : r.nodes[i]? = ns[i - m.keptNodes.length]? := by
      rw [← Array.getElem?_toList, hnodes, List.getElem?_append_right]
      rw [length_keptNodes]
      omega
    obtain ⟨n, hn⟩ : ∃ n, r.nodes[i]? = some n := ⟨_, Array.getElem?_eq_getElem hlt⟩
    have hreg := (hregisters n (List.mem_of_getElem? (hget ▸ hn))).isRegister
    unfold Module.isRegister at hnode
    rw [hn] at hnode
    exact absurd hreg (by simp [hnode])
  · intro hlt
    obtain ⟨id, hid, rfl⟩ := exists_rank_eq hlt
    refine ⟨?_, h.isRegister hid⟩
    have hsome := isSome_of_mem_combinationalNodes hid
    rw [← h.getElem?_rank hid] at hsome
    simpa using hsome

/-- The nodes that are no registers are the first ones. -/
lemma KeepsNodes.combinationalNodes {r : Module} (h : m.KeepsNodes r) :
    r.combinationalNodes = List.range m.combinationalNodes.length := by
  have hperm : r.combinationalNodes.Perm (List.range m.combinationalNodes.length) := by
    rw [List.perm_ext_iff_of_nodup r.combinationalNodes_sorted.nodup List.nodup_range]
    intro i
    rw [h.mem_combinationalNodes, List.mem_range]
  apply hperm.eq_of_pairwise _ r.combinationalNodes_sorted List.pairwise_lt_range
  intro a b _ _ hab hba
  omega

lemma KeepsNodes.rank_eq {r : Module} (h : m.KeepsNodes r) {i : Nat}
    (hi : i < m.combinationalNodes.length) : r.rank i = i := by
  apply countP_lt_of_getElem? r.combinationalNodes_sorted
  rw [h.combinationalNodes]
  exact List.getElem?_range hi

/-! ### Data connections -/

/-- The traced connections that an edge stands for. -/
def edgeTraces (m : Module) (e : Edge (List Connection)) : List TracedConnection :=
  e.value.map fun x => ⟨m.rankConnection x, e.weight.toNat⟩

/-- A circuit over the nodes of a module that can be rebuilt. -/
structure Rebuildable (m : Module) (c : ModuleCircuit) : Prop where
  values : c.graph.vertices.toList.map Vertex.value = m.combinationalNodes
  links : ∀ e ∈ c.graph.edges.toList, ∀ x ∈ e.value, m.IsDataLink x
  single : (c.graph.edges.toList.flatMap Edge.value).Pairwise fun a b => a.driven ≠ b.driven
  fits : ∀ e ∈ c.graph.edges.toList, 0 < e.weight → e.value.length ≤ Shape.maxWidth

lemma Rebuildable.rebase_eq_ok {c : ModuleCircuit} (h : m.Rebuildable c) {w : Wire}
    (hw : w.node ∈ m.combinationalNodes) : rebase c w = .ok (m.rankWire w) := by
  have hfind : (c.graph.vertices.findIdx? fun v => v.value == w.node) = some (m.rank w.node) := by
    rw [← findIdx?_combinationalNodes hw, ← h.values, List.findIdx?_map, ← List.findIdx?_toArray,
      Array.toArray_toList]
    rfl
  unfold rebase
  rw [hfind]
  rfl

/-- A module under reconstruction that has no handshakes yet and whose data connections are traced
to given ones. -/
structure Rebuilding (m r : Module) (ts : List TracedConnection) : Prop where
  wired : r.WellWired
  nodes : m.KeepsNodes r
  data : ∀ x ∈ r.connections, isHandshake x = false
  paths : List.Forall₂ r.TracesTo (r.connections.toList.filter r.isDataPath) ts

lemma TracesTo.extend {c : Connection} {t : TracedConnection} (h : m.TracesTo c t)
    (hwired : m.WellWired) {ns : List Node} {cs : List Connection}
    (hwired' : (m.extend ns cs).WellWired) (hc : c ∈ m.connections) :
    (m.extend ns cs).TracesTo c t := by
  refine ⟨h.driven, ?_, ?_⟩
  · exact h.traces.extend hwired hwired' (node_lt_of_hasWire (hwired.hasDriver c hc))
  · have hwithin := h.within
    rw [size_extend]
    omega

lemma isDataPath_extend {c : Connection} (hwired : m.WellWired) {ns : List Node}
    {cs : List Connection} (hc : c ∈ m.connections) :
    (m.extend ns cs).isDataPath c = m.isDataPath c := by
  unfold isDataPath
  rw [isRegister_extend (node_lt_of_hasWire (hwired.hasDriven c hc))]

/-- The data connections of a module that has grown are the old ones and then the new ones. -/
lemma paths_extend (hwired : m.WellWired) {ns : List Node} {cs : List Connection}
    (hwired' : (m.extend ns cs).WellWired) {ts ts' : List TracedConnection}
    (hold : List.Forall₂ m.TracesTo (m.connections.toList.filter m.isDataPath) ts)
    (hnew : List.Forall₂ (m.extend ns cs).TracesTo (cs.filter (m.extend ns cs).isDataPath) ts') :
    List.Forall₂ (m.extend ns cs).TracesTo
      ((m.extend ns cs).connections.toList.filter (m.extend ns cs).isDataPath) (ts ++ ts') := by
  have hlist : (m.extend ns cs).connections.toList = m.connections.toList ++ cs := by
    simp [extend]
  have hfilter : m.connections.toList.filter (m.extend ns cs).isDataPath =
      m.connections.toList.filter m.isDataPath := by
    apply List.filter_congr
    intro c hc
    exact isDataPath_extend hwired (Array.mem_toList_iff.mp hc)
  rw [hlist, List.filter_append, hfilter]
  refine List.rel_append ?_ hnew
  have hmem : ∀ c ∈ m.connections.toList.filter m.isDataPath, c ∈ m.connections := by
    intro c hc
    exact Array.mem_toList_iff.mp (List.mem_filter.mp hc).1
  have hmem' := (List.forall₂_and_left _ _).mpr ⟨hmem, hold⟩
  exact hmem'.imp fun c t hct => hct.2.extend hwired hwired' hct.1

/-- A new connection into a node that is no register finds its wire free if the traced connections
do not drive it. -/
lemma Rebuilding.fresh {r : Module} {ts : List TracedConnection} (h : m.Rebuilding r ts)
    {x : Connection} (hx : m.IsDataLink x)
    (hfresh : ∀ t ∈ ts, t.connection.driven ≠ m.rankWire x.driven) :
    ∀ a ∈ r.connections, a.driven ≠ m.rankWire x.driven := by
  intro a ha heq
  have hpath : r.isDataPath a = true := by
    rw [isDataPath_iff, heq]
    exact ⟨hx.data, h.nodes.isRegister hx.driven_mem⟩
  obtain ⟨t, ht, hat⟩ := exists_traced h.paths ha hpath
  exact hfresh t ht (hat.driven.trans heq)

/-- The connections from the end of a chain into the nodes that are no registers. -/
def outputLinks (m : Module) (outs : List Wire) (xs : List Connection) : List Connection :=
  (outs.zip xs).map fun (o, x) => ⟨o, m.rankWire x.driven⟩

lemma mem_outputLinks {outs : List Wire} {xs : List Connection} {c : Connection}
    (hc : c ∈ m.outputLinks outs xs) :
    c.driver ∈ outs ∧ ∃ x ∈ xs, c.driven = m.rankWire x.driven := by
  obtain ⟨⟨o, x⟩, hmem, rfl⟩ := List.mem_map.mp hc
  obtain ⟨ho, hx⟩ := List.of_mem_zip hmem
  exact ⟨ho, x, hx, rfl⟩

lemma outputLinks_single {outs : List Wire} {xs : List Connection}
    (hlength : xs.length ≤ outs.length) (hlinks : ∀ x ∈ xs, m.IsDataLink x)
    (hsingle : xs.Pairwise fun a b => a.driven ≠ b.driven) :
    (m.outputLinks outs xs).Pairwise fun a b => a.driven ≠ b.driven := by
  have hxs : (outs.zip xs).Pairwise fun a b => a.2.driven ≠ b.2.driven := by
    rw [← List.map_snd_zip hlength, List.pairwise_map] at hsingle
    exact hsingle
  rw [outputLinks, List.pairwise_map]
  apply hxs.imp_of_mem
  intro a b ha hb hab heq
  exact hab (rankWire_inj (hlinks _ (List.of_mem_zip ha).2).driven_mem
    (hlinks _ (List.of_mem_zip hb).2).driven_mem heq)

lemma Rebuilding.addable_outputLinks {r : Module} {ts : List TracedConnection}
    (h : m.Rebuilding r ts) {xs : List Connection} (hlinks : ∀ x ∈ xs, m.IsDataLink x)
    (hsingle : xs.Pairwise fun a b => a.driven ≠ b.driven)
    (hfresh : ∀ x ∈ xs, ∀ t ∈ ts, t.connection.driven ≠ m.rankWire x.driven)
    {k : Nat} {drivers outs : List Wire} {ns : List Node} {cs : List Connection}
    (hchain : r.RegisterChain k drivers ns cs outs) (hlength : drivers.length = xs.length) :
    (r.extend ns cs).Addable [] (m.outputLinks outs xs) := by
  obtain ⟨houtsLength, houts⟩ := hchain.outs_spec
  have hnodes : m.KeepsNodes (r.extend ns cs) := h.nodes.extend hchain.registers
  refine ⟨?_, ?_, ?_, ?_, outputLinks_single (by omega) hlinks hsingle, ?_⟩
  · intro c hc
    rw [extend_nil]
    exact (houts _ (mem_outputLinks hc).1).1
  · intro c hc
    obtain ⟨-, x, hx, hdriven⟩ := mem_outputLinks hc
    rw [extend_nil, hdriven, hnodes.hasWire (hlinks x hx).driven_mem]
    exact (hlinks x hx).hasDriven
  · intro c hc
    exact (houts _ (mem_outputLinks hc).1).2
  · intro c hc
    obtain ⟨-, x, hx, hdriven⟩ := mem_outputLinks hc
    rw [hdriven]
    exact (hlinks x hx).consumed
  · intro c hc a ha
    obtain ⟨-, x, hx, hdriven⟩ := mem_outputLinks hc
    rw [hdriven]
    rcases mem_extend.mp ha with ha | ha
    · exact h.fresh (hlinks x hx) (hfresh x hx) a ha
    · intro heq
      -- the chain drives its own registers only, which come after all nodes so far
      have hle := (hchain.driven a ha).1
      have hwire := h.nodes.hasWire (hlinks x hx).driven_mem
      rw [(hlinks x hx).hasDriven] at hwire
      have hlt := node_lt_of_hasWire hwire
      rw [heq] at hle
      omega

/-- Each connection at the end of a chain traces to where its bundle says, through the registers of
the chain. -/
lemma Rebuilding.traces_outputLinks {r : Module} {ts : List TracedConnection}
    (h : m.Rebuilding r ts) {xs : List Connection} (hlinks : ∀ x ∈ xs, m.IsDataLink x)
    {k : Nat} {outs : List Wire} {ns : List Node} {cs : List Connection}
    (hchain : r.RegisterChain k (xs.map fun x => m.rankWire x.driver) ns cs outs)
    (hwired : ((r.extend ns cs).extend [] (m.outputLinks outs xs)).WellWired) :
    List.Forall₂ ((r.extend ns cs).extend [] (m.outputLinks outs xs)).TracesTo
      (m.outputLinks outs xs) (xs.map fun x => ⟨m.rankConnection x, k⟩) := by
  have hbehind := List.forall₂_map_left_iff.mp hchain.behind
  apply forall₂_zip_map ((List.forall₂_and_left _ _).mpr ⟨hlinks, hbehind⟩)
  rintro x o ⟨hx, ho⟩
  have hsource : r.Traces (m.rankWire x.driver) (m.rankWire x.driver) 0 :=
    .here (h.nodes.isRegister hx.driver_mem)
  have htraces := (ho.traces _ _ hsource).extend hchain.wired hwired (node_lt_of_hasWire ho.hasWire)
  rw [Nat.zero_add] at htraces
  refine ⟨rfl, htraces, ?_⟩
  rw [size_extend, size_extend, hchain.length]
  simp only [List.length_nil]
  omega

lemma Rebuilding.filter_outputLinks {r : Module} {ts : List TracedConnection}
    (h : m.Rebuilding r ts) {xs : List Connection} (hlinks : ∀ x ∈ xs, m.IsDataLink x)
    {k : Nat} {drivers outs : List Wire} {ns : List Node} {cs : List Connection}
    (hchain : r.RegisterChain k drivers ns cs outs) :
    (cs ++ m.outputLinks outs xs).filter (r.extend ns (cs ++ m.outputLinks outs xs)).isDataPath =
      m.outputLinks outs xs := by
  have hcs : cs.filter (r.extend ns (cs ++ m.outputLinks outs xs)).isDataPath = [] := by
    rw [List.filter_eq_nil_iff]
    intro c hc hpath
    have hnode := (isDataPath_iff.mp hpath).2
    rw [hchain.isRegister_driven hc] at hnode
    cases hnode
  have hlinks' : (m.outputLinks outs xs).filter
      (r.extend ns (cs ++ m.outputLinks outs xs)).isDataPath = m.outputLinks outs xs := by
    rw [List.filter_eq_self]
    intro c hc
    obtain ⟨-, x, hx, hdriven⟩ := mem_outputLinks hc
    rw [isDataPath_iff, hdriven]
    exact ⟨(hlinks x hx).data, (h.nodes.extend hchain.registers).isRegister (hlinks x hx).driven_mem⟩
  rw [List.filter_append, hcs, hlinks', List.nil_append]

/-- One edge of the circuit. -/
lemma Rebuilding.addEdge {c : ModuleCircuit} (hc : m.Rebuildable c) {r : Module}
    {ts : List TracedConnection} (h : m.Rebuilding r ts) (number : Nat)
    {e : Edge (List Connection)} (hlinks : ∀ x ∈ e.value, m.IsDataLink x)
    (hsingle : e.value.Pairwise fun a b => a.driven ≠ b.driven)
    (hfresh : ∀ x ∈ e.value, ∀ t ∈ ts, t.connection.driven ≠ m.rankWire x.driven)
    (hfits : 0 < e.weight → e.value.length ≤ Shape.maxWidth) :
    ∃ state, Module.addEdge c (r, number) e = .ok state ∧
      m.Rebuilding state.1 (ts ++ m.edgeTraces e) := by
  have hmapM : e.value.mapM (fun x => rebase c x.driver) =
      .ok (e.value.map fun x => m.rankWire x.driver) :=
    mapM_eq_ok fun x hx => hc.rebase_eq_ok (hlinks x hx).driver_mem
  have hdrivers : ∀ d ∈ e.value.map fun x => m.rankWire x.driver,
      r.hasWire d = true ∧ d.isProduced = true := by
    intro d hd
    obtain ⟨x, hx, rfl⟩ := List.mem_map.mp hd
    rw [h.nodes.hasWire (hlinks x hx).driver_mem]
    exact ⟨(hlinks x hx).hasDriver, (hlinks x hx).produced⟩
  have hfits' : 0 < e.weight.toNat →
      (e.value.map fun x => m.rankWire x.driver).length ≤ Shape.maxWidth := by
    intro hpos
    rw [List.length_map]
    exact hfits (by omega)
  obtain ⟨ns, cs, outs, hregisters, hchain⟩ :=
    addRegisters_spec h.wired number e.weight.toNat hdrivers hfits'
  have hadd := h.addable_outputLinks hlinks hsingle hfresh hchain (List.length_map _)
  have hwired := hchain.wired.extend hadd
  have hfold : (outs.zip e.value).foldlM
      (fun m (driver, x) => do m.reconnect driver (← rebase c x.driven)) (r.extend ns cs) =
        .ok ((r.extend ns cs).extend [] (m.outputLinks outs e.value)) := by
    apply foldlM_reconnect _ hadd
    rintro m' ⟨o, x⟩ hx
    simp only [hc.rebase_eq_ok (hlinks x (List.of_mem_zip hx).2).driven_mem, bind, Except.bind]
  refine ⟨((r.extend ns cs).extend [] (m.outputLinks outs e.value), number + e.weight.toNat), ?_, ?_⟩
  · unfold Module.addEdge
    simp only [bind, Except.bind] at hfold ⊢
    rw [hmapM]
    dsimp only
    rw [hregisters]
    dsimp only
    rw [hfold]
    rfl
  · dsimp only
    have htraces := h.traces_outputLinks hlinks hchain hwired
    have hext : (r.extend ns cs).extend [] (m.outputLinks outs e.value) =
        r.extend ns (cs ++ m.outputLinks outs e.value) := by
      rw [extend_extend, List.append_nil]
    rw [hext] at htraces hwired ⊢
    refine ⟨hwired, h.nodes.extend hchain.registers, ?_, ?_⟩
    · intro x hx
      rcases mem_extend.mp hx with hx | hx
      · exact h.data x hx
      rcases List.mem_append.mp hx with hx | hx
      · exact (hchain.driven x hx).2
      · obtain ⟨-, y, hy, hdriven⟩ := mem_outputLinks hx
        obtain ⟨leaf, hleaf⟩ := (hlinks y hy).data
        exact isHandshake_of_data (by rw [hdriven, rankWire, hleaf])
    · apply paths_extend h.wired hwired h.paths
      rw [h.filter_outputLinks hlinks hchain]
      exact htraces

/-- All edges of the circuit, one after the other. -/
lemma Rebuilding.addEdges {c : ModuleCircuit} (hc : m.Rebuildable c) {r : Module}
    {ts : List TracedConnection} (h : m.Rebuilding r ts) (number : Nat)
    {es : List (Edge (List Connection))} (hes : ∀ e ∈ es, e ∈ c.graph.edges.toList)
    (hsingle : (es.flatMap Edge.value).Pairwise fun a b => a.driven ≠ b.driven)
    (hfresh : ∀ x ∈ es.flatMap Edge.value, ∀ t ∈ ts, t.connection.driven ≠ m.rankWire x.driven) :
    ∃ state, es.foldlM (Module.addEdge c) (r, number) = .ok state ∧
      m.Rebuilding state.1 (ts ++ es.flatMap m.edgeTraces) := by
  induction es generalizing r ts number with
  | nil => exact ⟨(r, number), rfl, by simpa using h⟩
  | cons e es ih =>
    rw [List.flatMap_cons] at hsingle hfresh
    obtain ⟨hsingle₁, hsingle₂, hacross⟩ := List.pairwise_append.mp hsingle
    have he := hes e (by simp)
    have hlinks : ∀ e' ∈ e :: es, ∀ x ∈ e'.value, m.IsDataLink x :=
      fun e' he' => hc.links e' (hes e' he')
    obtain ⟨⟨r', number'⟩, hstep, h'⟩ := h.addEdge hc number (hlinks e (by simp)) hsingle₁
      (fun x hx => hfresh x (List.mem_append_left _ hx)) (hc.fits e he)
    obtain ⟨state, hrest, hstate⟩ := ih h' number' (fun e' he' => hes e' (by simp [he'])) hsingle₂
      (by
        intro x hx t ht
        rcases List.mem_append.mp ht with ht | ht
        · exact hfresh x (List.mem_append_right _ hx) t ht
        · obtain ⟨y, hy, rfl⟩ := List.mem_map.mp ht
          obtain ⟨e', he', hx'⟩ := List.mem_flatMap.mp hx
          intro heq
          exact hacross y hy x hx (rankWire_inj (hlinks e (by simp) y hy).driven_mem
            (hlinks e' (by simp [he']) x hx').driven_mem heq))
    refine ⟨state, ?_, ?_⟩
    · rw [List.foldlM_cons, hstep]
      exact hrest
    · rwa [List.append_assoc, ← List.flatMap_cons] at hstate

/-! ### Handshakes -/

/-- Registers take no part in handshakes. -/
def HandshakesAvoidRegisters (m : Module) : Prop :=
  ∀ x ∈ m.connections, isHandshake x = true →
    m.isRegister x.driver.node = false ∧ m.isRegister x.driven.node = false

/-- The connections of handshakes, with nodes replaced by their ranks. -/
def rankedHandshakes (m : Module) : List Connection :=
  (m.connections.toList.filter isHandshake).map m.rankConnection

lemma mem_handshakes (hwired : m.WellWired) (havoid : m.HandshakesAvoidRegisters) {x : Connection}
    (hx : x ∈ m.connections.toList.filter isHandshake) :
    x ∈ m.connections ∧ x.driver.node ∈ m.combinationalNodes ∧
      x.driven.node ∈ m.combinationalNodes := by
  obtain ⟨hmem, hshake⟩ := List.mem_filter.mp hx
  rw [Array.mem_toList_iff] at hmem
  obtain ⟨hdriver, hdriven⟩ := havoid x hmem hshake
  exact ⟨hmem,
    mem_combinationalNodes.mpr ⟨node_lt_of_hasWire (hwired.hasDriver x hmem), hdriver⟩,
    mem_combinationalNodes.mpr ⟨node_lt_of_hasWire (hwired.hasDriven x hmem), hdriven⟩⟩

lemma isHandshake_rankConnection (x : Connection) :
    isHandshake (m.rankConnection x) = isHandshake x :=
  rfl

lemma Rebuilding.addable_handshakes (hwired : m.WellWired) (havoid : m.HandshakesAvoidRegisters)
    {r : Module} {ts : List TracedConnection} (h : m.Rebuilding r ts) :
    r.Addable [] m.rankedHandshakes := by
  have hmem : ∀ y ∈ m.rankedHandshakes, ∃ x ∈ m.connections, m.rankConnection x = y ∧
      isHandshake y = true ∧ x.driver.node ∈ m.combinationalNodes ∧
      x.driven.node ∈ m.combinationalNodes := by
    intro y hy
    obtain ⟨x, hx, rfl⟩ := List.mem_map.mp hy
    obtain ⟨hx', hnodes⟩ := mem_handshakes hwired havoid hx
    exact ⟨x, hx', rfl, (List.mem_filter.mp hx).2, hnodes⟩
  refine ⟨?_, ?_, ?_, ?_, ?_, ?_⟩
  · intro y hy
    obtain ⟨x, hx, rfl, -, hdriver, -⟩ := hmem y hy
    rw [extend_nil]
    exact (h.nodes.hasWire hdriver).trans (hwired.hasDriver x hx)
  · intro y hy
    obtain ⟨x, hx, rfl, -, -, hdriven⟩ := hmem y hy
    rw [extend_nil]
    exact (h.nodes.hasWire hdriven).trans (hwired.hasDriven x hx)
  · intro y hy
    obtain ⟨x, hx, rfl, -⟩ := hmem y hy
    exact hwired.produced x hx
  · intro y hy
    obtain ⟨x, hx, rfl, -⟩ := hmem y hy
    exact hwired.consumed x hx
  · rw [rankedHandshakes, List.pairwise_map]
    apply (hwired.single.filter isHandshake).imp_of_mem
    intro a b ha hb hab heq
    exact hab (rankWire_inj (mem_handshakes hwired havoid ha).2.2
      (mem_handshakes hwired havoid hb).2.2 heq)
  · intro y hy a ha heq
    -- what is connected so far is data
    obtain ⟨x, -, -, hshake, -⟩ := hmem y hy
    have hdata := h.data a ha
    rw [isHandshake, heq] at hdata
    rw [isHandshake, hdata] at hshake
    cases hshake

/-- A module rebuilt from a circuit. -/
structure IsRebuilt (m : Module) (c : ModuleCircuit) (r : Module) : Prop where
  wired : r.WellWired
  nodes : m.KeepsNodes r
  traced : r.tracedConnections? = some (c.graph.edges.toList.flatMap m.edgeTraces)
  handshakes : r.connections.toList.filter isHandshake = m.rankedHandshakes

lemma Rebuildable.rebuilding_start {c : ModuleCircuit} (hc : m.Rebuildable c) :
    m.Rebuilding { m with
      nodes := c.graph.vertices.filterMap fun v => m.nodes[v.value]?, connections := #[] } [] := by
  refine ⟨?_, ⟨[], ?_, by simp⟩, by simp, by simp⟩
  · refine ⟨?_, ?_, ?_, ?_, ?_⟩ <;> simp
  · rw [keptNodes, ← hc.values, List.filterMap_map]
    simp

/-- A module in which registers take no part in handshakes is rebuilt from every circuit over its
nodes whose bundles fit. -/
theorem WellWired.rebuild_spec (hwired : m.WellWired) (havoid : m.HandshakesAvoidRegisters)
    {c : ModuleCircuit} (hc : m.Rebuildable c) :
    ∃ r, m.rebuild c = .ok r ∧ m.IsRebuilt c r := by
  obtain ⟨⟨r, number⟩, hfold, h⟩ := hc.rebuilding_start.addEdges hc 0 (fun _ he => he) hc.single
    (by simp)
  rw [List.nil_append] at h
  have hadd := h.addable_handshakes hwired havoid
  have hwired' := h.wired.extend hadd
  refine ⟨r.extend [] m.rankedHandshakes, ?_, hwired', h.nodes.extend (by simp), ?_, ?_⟩
  · unfold rebuild
    simp only [hfold, bind, Except.bind]
    apply foldlM_reconnect _ hadd
    intro r' x hx
    obtain ⟨-, hdriver, hdriven⟩ := mem_handshakes hwired havoid hx
    rw [hc.rebase_eq_ok hdriver, hc.rebase_eq_ok hdriven]
    rfl
  · rw [tracedConnections?_eq_some_iff]
    have hnone : m.rankedHandshakes.filter (r.extend [] m.rankedHandshakes).isDataPath = [] := by
      rw [List.filter_eq_nil_iff]
      intro y hy hpath
      obtain ⟨x, hx, rfl⟩ := List.mem_map.mp hy
      obtain ⟨⟨leaf, hleaf⟩, -⟩ := isDataPath_iff.mp hpath
      have hshake := (List.mem_filter.mp hx).2
      rw [← isHandshake_rankConnection (m := m), isHandshake_of_data hleaf] at hshake
      cases hshake
    rw [← List.append_nil (c.graph.edges.toList.flatMap m.edgeTraces)]
    apply paths_extend h.wired hwired' h.paths
    rw [hnone]
    exact .nil
  · have hold : r.connections.toList.filter isHandshake = [] := by
      rw [List.filter_eq_nil_iff]
      intro x hx
      simp [h.data x (Array.mem_toList_iff.mp hx)]
    have hnew : m.rankedHandshakes.filter isHandshake = m.rankedHandshakes := by
      rw [List.filter_eq_self]
      intro y hy
      obtain ⟨x, hx, rfl⟩ := List.mem_map.mp hy
      exact (List.mem_filter.mp hx).2
    have hlist : (r.extend [] m.rankedHandshakes).connections.toList =
        r.connections.toList ++ m.rankedHandshakes := by simp [Module.extend]
    rw [hlist, List.filter_append, hold, hnew, List.nil_append]

/-- What is rebuilt has bundles that fit in a port wherever registers are put in. -/
lemma length_le_of_rebuild {c : ModuleCircuit} {r : Module} (h : m.rebuild c = .ok r)
    {e : Edge (List Connection)} (he : e ∈ c.graph.edges.toList) (hpos : 0 < e.weight) :
    e.value.length ≤ Shape.maxWidth := by
  unfold rebuild at h
  simp only [bind, Except.bind] at h
  split at h
  · cases h
  · next hfold =>
    obtain ⟨⟨m₁, number⟩, state, hstep⟩ := exists_step_of_foldlM hfold he
    unfold Module.addEdge at hstep
    simp only [bind, Except.bind] at hstep
    split at hstep
    · cases hstep
    · next drivers hdrivers =>
      obtain ⟨count, hcount⟩ : ∃ count, e.weight.toNat = count + 1 :=
        ⟨e.weight.toNat - 1, by omega⟩
      rw [hcount, addRegisters] at hstep
      simp only [bind, Except.bind] at hstep
      rw [(forall₂_of_mapM_eq_ok hdrivers).length_eq]
      cases hregister : m₁.addRegister number drivers with
      | error e => simp [hregister] at hstep
      | ok state => exact length_le_of_addRegister hregister

end Module

end NetlistCompiler
