import NetlistCompiler.Proofs.BuiltModules
import NetlistCompiler.Proofs.RegisterSources

/-!
# Combinational loops

A data wire depends on the wire that drives it, and a data output of a node that is no register on
the data inputs of the node. The circuit of a module fails with a combinational loop exactly if the
wires of the module depend on each other in a cycle. Since a vertex of the circuit stands for a whole
node, a node that only passes its input on counts as if each of its outputs depended on every input:
a chain of gates through the elements of one vector is a loop of the circuit, though no wire
depends on itself.
-/

namespace NetlistCompiler

namespace Module

/-- Whether the node with a number only passes its input on. -/
def isPass (m : Module) (node : Nat) : Bool :=
  (m.nodes[node]?.map fun n => n.kind matches .pass).getD false

/-- What the value of a data wire depends on directly: a driven wire on its driver, and an output of
a node that is no register on the inputs of the node. Leaf by leaf, an output of a node that passes
its input on depends only on the same leaf of the input. -/
inductive DependsOn (m : Module) (leafwise : Bool) : Wire → Wire → Prop where
  | driver {c : Connection} (hc : c ∈ m.connections) (hdata : ∃ leaf, c.driven.slot = .data leaf) :
      m.DependsOn leafwise c.driven c.driver
  | node {o i : Wire} (ho : m.hasWire o = true) (hi : m.hasWire i = true) (hnode : o.node = i.node)
      (hregister : m.isRegister o.node = false) (hout : o.side = .output) (hin : i.side = .input)
      (hodata : ∃ leaf, o.slot = .data leaf) (hidata : ∃ leaf, i.slot = .data leaf)
      (hleaf : leafwise = true → m.isPass o.node = true → o.port = i.port ∧ o.slot = i.slot) :
      m.DependsOn leafwise o i

variable {m : Module}

/-- Wires that can be ranked so that every wire depends on lower ones have no cycle. -/
lemma not_cycle_of_rank {leafwise : Bool} (rank : Wire → Nat)
    (hrank : ∀ w v, m.DependsOn leafwise w v → rank v < rank w) (w : Wire) :
    ¬ Relation.TransGen (m.DependsOn leafwise) w w := by
  intro hcycle
  have hlower : ∀ v, Relation.TransGen (m.DependsOn leafwise) w v → rank v < rank w := by
    intro v hv
    induction hv with
    | single h => exact hrank _ _ h
    | tail _ h ih => exact (hrank _ _ h).trans ih
  exact lt_irrefl _ (hlower w hcycle)

lemma side_of_data {w : Wire} (hdata : ∃ leaf, w.slot = .data leaf) :
    w.isProduced = true ↔ w.side = .output := by
  obtain ⟨leaf, hslot⟩ := hdata
  simp [Wire.isProduced, hslot]

lemma Built.driver_data (h : m.Built) {c : Connection} (hc : c ∈ m.connections)
    (hdata : ∃ leaf, c.driven.slot = .data leaf) :
    (∃ leaf, c.driver.slot = .data leaf) ∧ c.driver.side = .output ∧ c.driven.side = .input := by
  have hdriver := (h.slots c hc).mpr hdata
  refine ⟨hdriver, (side_of_data hdriver).mp (h.wired.produced c hc), ?_⟩
  have hconsumed := h.wired.consumed c hc
  cases hside : c.driven.side with
  | input => rfl
  | output =>
    rw [(side_of_data hdata).mpr hside] at hconsumed
    cases hconsumed

/-- A node that is no register computes what it drives from what drives it. -/
lemma Built.dependsOn_node (h : m.Built) {c c' : Connection} (hc : c ∈ m.connections)
    (hpath : m.isDataPath c = true) (hc' : c' ∈ m.connections) (hpath' : m.isDataPath c' = true)
    (hnode : c'.driver.node = c.driven.node) : m.DependsOn false c'.driver c.driven := by
  obtain ⟨hdata, hregister⟩ := isDataPath_iff.mp hpath
  obtain ⟨-, -, hin⟩ := h.driver_data hc hdata
  obtain ⟨hdata', hout, -⟩ := h.driver_data hc' (isDataPath_iff.mp hpath').1
  refine .node (h.wired.hasDriver c' hc') (h.wired.hasDriven c hc) hnode ?_ hout hin hdata' hdata ?_
  · rw [hnode, hregister]
  · intro hfalse
    cases hfalse

lemma Traces.eq_of_zero {w s : Wire} (h : m.Traces w s 0) : s = w := by
  cases h
  rfl

/-! ### From the circuit to the wires -/

section

variable {delay : Node → Int} {ts : List TracedConnection} {g : WeightedGraph Nat (List Connection)}

lemma HasGraph.delay_nonneg (hgraph : m.HasGraph delay ts g) (hdelay : ∀ n ∈ m.nodes, 0 ≤ delay n) :
    ∀ v ∈ g.vertices, 0 ≤ v.weight := by
  intro v hv
  rw [← Array.mem_toList_iff, hgraph.vertices] at hv
  obtain ⟨id, hid, rfl⟩ := List.mem_map.mp hv
  obtain ⟨hlt, -⟩ := mem_combinationalNodes.mp hid
  simpa [vertexAt, hlt] using hdelay _ (Array.getElem_mem hlt)

lemma HasGraph.registers_nonneg (hgraph : m.HasGraph delay ts g) :
    ∀ e ∈ g.edges, 0 ≤ e.weight := by
  intro e he
  rw [← Array.mem_toList_iff, hgraph.edges] at he
  obtain ⟨k, -, rfl⟩ := List.mem_map.mp he
  exact Int.natCast_nonneg k.2.2

/-- An edge without registers holds a connection between its nodes. -/
lemma HasGraph.exists_connection (hgraph : m.HasGraph delay ts g)
    (hts : m.tracedConnections? = some ts) {e : Edge (List Connection)} (he : e ∈ g.edges)
    (hzero : e.weight = 0) :
    ∃ c ∈ m.connections, m.isDataPath c = true ∧ m.isRegister c.driver.node = false ∧
      m.rank c.driver.node = e.source ∧ m.rank c.driven.node = e.sink := by
  have hmem : e ∈ (TracedConnection.keys ts).map (m.bundle ts) := by
    rw [← hgraph.edges]
    exact Array.mem_toList_iff.mpr he
  obtain ⟨k, hk, rfl⟩ := List.mem_map.mp hmem
  obtain ⟨t, ht, rfl⟩ := TracedConnection.mem_keys.mp hk
  obtain ⟨c, hc, hpath, hct⟩ :=
    Module.exists_connection (tracedConnections?_eq_some_iff.mp hts) ht
  have hregisters : t.registers = 0 := Int.ofNat_eq_zero.mp hzero
  have hsame : t.connection.driver = c.driver :=
    (hregisters ▸ hct.traces).eq_of_zero
  refine ⟨c, hc, hpath, ?_, ?_, ?_⟩
  · rw [← hsame]
    exact hct.traces.isRegister_source
  · change m.rank c.driver.node = m.rank t.connection.driver.node
    rw [hsame]
  · change m.rank c.driven.node = m.rank t.connection.driven.node
    rw [hct.driven]

/-- Conversely, a connection between two nodes that are no registers lies on an edge without
registers. -/
lemma HasGraph.exists_edge (hgraph : m.HasGraph delay ts g)
    (hts : m.tracedConnections? = some ts) {c : Connection} (hc : c ∈ m.connections)
    (hpath : m.isDataPath c = true) (hdriver : m.isRegister c.driver.node = false) :
    ∃ e ∈ g.edges, e.weight = 0 ∧ e.source = m.rank c.driver.node ∧
      e.sink = m.rank c.driven.node := by
  obtain ⟨t, ht, hct⟩ := exists_traced (tracedConnections?_eq_some_iff.mp hts) hc hpath
  obtain ⟨hsource, hregisters⟩ := hct.traces.unique (.here hdriver)
  have hmem : m.bundle ts t.key ∈ g.edges.toList := by
    rw [hgraph.edges]
    exact List.mem_map_of_mem (TracedConnection.mem_keys.mpr ⟨t, ht, rfl⟩)
  refine ⟨m.bundle ts t.key, Array.mem_toList_iff.mp hmem, ?_, ?_, ?_⟩
  · change (t.registers : Int) = 0
    rw [hregisters]
    rfl
  · change m.rank t.connection.driver.node = _
    rw [hsource]
  · change m.rank t.connection.driven.node = _
    rw [hct.driven]

/-- Along a walk without registers, the last driven wire depends on the first driver. -/
lemma Built.dependsOn_of_walk (h : m.Built) (hgraph : m.HasGraph delay ts g)
    (hts : m.tracedConnections? = some ts) {u v : Nat} {e : Edge (List Connection)}
    {p : List (Edge (List Connection))} (hwalk : g.IsWalk u (e :: p) v)
    (hzero : ∀ e' ∈ e :: p, e'.weight = 0) :
    ∃ first ∈ m.connections, ∃ last ∈ m.connections, m.isDataPath first = true ∧
      m.isDataPath last = true ∧ m.isRegister first.driver.node = false ∧
      m.rank first.driver.node = u ∧ m.rank last.driven.node = v ∧
      Relation.TransGen (m.DependsOn false) last.driven first.driver := by
  induction p generalizing u e with
  | nil =>
    obtain ⟨he, hsource, hsink, -⟩ := hwalk
    obtain ⟨c, hc, hpath, hregister, hrank, hrank'⟩ :=
      hgraph.exists_connection hts he (hzero e (by simp))
    refine ⟨c, hc, c, hc, hpath, hpath, hregister, hrank.trans hsource, hrank'.trans hsink, ?_⟩
    exact .single (.driver hc (isDataPath_iff.mp hpath).1)
  | cons e' p ih =>
    obtain ⟨he, hsource, hrest⟩ := hwalk
    obtain ⟨c, hc, hpath, hregister, hrank, hrank'⟩ :=
      hgraph.exists_connection hts he (hzero e (by simp))
    obtain ⟨first, hfirst, last, hlast, hpath₁, hpath₂, hregister₁, hrank₁, hrank₂, hdepends⟩ :=
      ih hrest fun e'' he'' => hzero e'' (List.mem_cons_of_mem _ he'')
    refine ⟨c, hc, last, hlast, hpath, hpath₂, hregister, hrank.trans hsource, hrank₂, ?_⟩
    -- the sink of the first edge is the source of the second one
    have hnode : first.driver.node = c.driven.node := by
      refine rank_inj ?_ ?_ (hrank₁.trans hrank'.symm)
      · exact mem_combinationalNodes.mpr
          ⟨node_lt_of_hasWire (h.wired.hasDriver first hfirst), hregister₁⟩
      · exact mem_combinationalNodes.mpr
          ⟨node_lt_of_hasWire (h.wired.hasDriven c hc), (isDataPath_iff.mp hpath).2⟩
    have hthrough := h.dependsOn_node hc hpath hfirst hpath₁ hnode
    exact (hdepends.tail hthrough).tail (.driver hc (isDataPath_iff.mp hpath).1)

lemma Built.exists_cycle (h : m.Built) (hgraph : m.HasGraph delay ts g)
    (hts : m.tracedConnections? = some ts) (hcycle : ¬ g.Acyclic fun e => e.weight = 0) :
    ∃ w, Relation.TransGen (m.DependsOn false) w w := by
  unfold WeightedGraph.Acyclic at hcycle
  push Not at hcycle
  obtain ⟨v, p, hwalk, hzero, hne⟩ := hcycle
  obtain ⟨e, p, rfl⟩ := List.exists_cons_of_ne_nil hne
  obtain ⟨first, hfirst, last, hlast, hpath₁, hpath₂, hregister, hrank₁, hrank₂, hdepends⟩ :=
    h.dependsOn_of_walk hgraph hts hwalk hzero
  have hnode : first.driver.node = last.driven.node := by
    refine rank_inj ?_ ?_ (hrank₁.trans hrank₂.symm)
    · exact mem_combinationalNodes.mpr
        ⟨node_lt_of_hasWire (h.wired.hasDriver first hfirst), hregister⟩
    · exact mem_combinationalNodes.mpr
        ⟨node_lt_of_hasWire (h.wired.hasDriven last hlast), (isDataPath_iff.mp hpath₂).2⟩
  exact ⟨_, hdepends.tail (h.dependsOn_node hlast hpath₂ hfirst hpath₁ hnode)⟩

/-! ### From the wires to the circuit -/

/-- The place of a wire in a topological order of the circuit. Nothing that is no register comes
before the outputs of registers or after their inputs. -/
def level (m : Module) (l : List Nat) (w : Wire) : Nat :=
  match m.isRegister w.node, w.side with
  | true, .output => 0
  | true, .input => 2 * l.length + 3
  | false, .input => 2 * l.idxOf (m.rank w.node) + 1
  | false, .output => 2 * l.idxOf (m.rank w.node) + 2

lemma Built.level_lt (h : m.Built) (hgraph : m.HasGraph delay ts g)
    (hts : m.tracedConnections? = some ts) {l : List Nat}
    (hl : g.IsTopologicalOrder (fun e => e.weight == 0) l) {w v : Wire}
    (hdepends : m.DependsOn false w v) : m.level l v < m.level l w := by
  cases hdepends with
  | node _ _ hnode hregister hout hin =>
    unfold level
    rw [hout, hin, ← hnode, hregister]
    simp
  | @driver c hc hdata =>
    obtain ⟨-, hout, hin⟩ := h.driver_data hc hdata
    have hplace : m.isRegister c.driver.node = false → l.idxOf (m.rank c.driver.node) < l.length := by
      intro hdriver
      have hmem := mem_combinationalNodes.mpr
        ⟨node_lt_of_hasWire (h.wired.hasDriver c hc), hdriver⟩
      have hlt := rank_lt_length hmem
      have horder : g.order = m.combinationalNodes.length := by
        rw [WeightedGraph.order, ← Array.length_toList, hgraph.vertices, List.length_map]
      exact List.idxOf_lt_length_of_mem ((hl.mem_iff _).mpr (horder ▸ hlt))
    unfold level
    rw [hout, hin]
    cases hdriven : m.isRegister c.driven.node with
    | true =>
      cases hdriver : m.isRegister c.driver.node with
      | true => simp
      | false =>
        have := hplace hdriver
        simp only
        omega
    | false =>
      cases hdriver : m.isRegister c.driver.node with
      | true => simp
      | false =>
        have hpath := isDataPath_iff.mpr ⟨hdata, hdriven⟩
        obtain ⟨e, he, hzero, hsource, hsink⟩ := hgraph.exists_edge hts hc hpath hdriver
        have hbefore := hl.before.idxOf_lt he (by simpa using hzero)
          ((hl.mem_iff _).mpr (WeightedGraph.sink_lt_of_mem he)) hl.nodup
        rw [hsource, hsink] at hbefore
        simp only
        omega

lemma Built.not_acyclic (h : m.Built) (hgraph : m.HasGraph delay ts g)
    (hts : m.tracedConnections? = some ts) {w : Wire}
    (hcycle : Relation.TransGen (m.DependsOn false) w w) :
    ¬ g.Acyclic fun e => e.weight = 0 := by
  intro hacyclic
  obtain ⟨l, hl⟩ : ∃ l, g.topologicalSort (fun e => e.weight == 0) = .ok l := by
    rw [WeightedGraph.exists_topologicalSort_iff]
    simpa using hacyclic
  have horder := WeightedGraph.topologicalSort_isTopologicalOrder hl
  exact not_cycle_of_rank (m.level l) (fun _ _ => h.level_lt hgraph hts horder) w hcycle

end

lemma Built.circuit?_combinationalLoop_iff (h : m.Built) {delay : Node → Int}
    (hdelay : ∀ n ∈ m.nodes, 0 ≤ delay n) {name : String} :
    (∃ nodes, m.circuit? delay name = .error (.graph name (.combinationalLoop nodes))) ↔
      m.circuit? delay name ≠ .ok none ∧ ∃ w, Relation.TransGen (m.DependsOn false) w w := by
  cases hts : m.tracedConnections? with
  | none => simp [circuit?_eq_none hts]
  | some ts =>
    obtain ⟨g, hgraph, heq⟩ := h.wired.circuit?_eq delay hts
    rw [heq name]
    rcases Circuit.ofGraph_cases (hgraph.delay_nonneg hdelay) hgraph.registers_nonneg with
      ⟨⟨c, hc, -⟩, hacyclic⟩ | ⟨⟨nodes, herror⟩, hcycle⟩
    · rw [hc]
      constructor
      · rintro ⟨nodes, ⟨⟩⟩
      · rintro ⟨-, w, hw⟩
        exact absurd hacyclic (h.not_acyclic hgraph hts hw)
    · rw [herror]
      constructor
      · intro _
        exact ⟨nofun, h.exists_cycle hgraph hts hcycle⟩
      · intro _
        exact ⟨nodes, rfl⟩

/-- A module of an elaborated program fails with a combinational loop exactly if all its data paths
have a source and some data wire depends on itself without a register in between, where every output
of a node that is no register depends on all its inputs. -/
theorem combinationalLoop_iff_cycle {p : Program} {depth : Nat} {session : Session}
    (hp : (p.buildAll depth).run .empty = some (.ok (), session)) {m : Module}
    (hm : m ∈ session.design.modules) {delay : Node → Int} (hdelay : ∀ n ∈ m.nodes, 0 ≤ delay n) (name : String) :
    (∃ nodes, m.circuit? delay name = .error (.graph name (.combinationalLoop nodes))) ↔
      m.circuit? delay name ≠ .ok none ∧ ∃ w, Relation.TransGen (m.DependsOn false) w w :=
  (built_of_buildAll hp hm).circuit?_combinationalLoop_iff hdelay

/-- An inverter from the first element of a vector to the second one. -/
def carryProgram : Program :=
  ⟨[], [⟨"carry", ⟨[], []⟩, [⟨"a", .signal, .wire⟩], [⟨"b", .signal, .wire⟩],
    [.connection [[.declared "v" (.interface (.vector .wire (.int 2)))]],
      .connection [[.reference "a" []], [.reference "v" [.index (.int 0)]]],
      .connection [[.reference "v" [.index (.int 0)]], [.anonymous (.function ⟨"not", [], []⟩)],
        [.reference "v" [.index (.int 1)]]],
      .connection [[.reference "v" [.index (.int 1)]], [.reference "b" []]]]⟩]⟩

def carryConnections : Array Connection :=
  #[⟨⟨0, .output, 0, .data 0⟩, ⟨2, .input, 0, .data 0⟩⟩,
    ⟨⟨2, .output, 0, .data 0⟩, ⟨3, .input, 0, .data 0⟩⟩,
    ⟨⟨3, .output, 0, .data 0⟩, ⟨2, .input, 0, .data 1⟩⟩,
    ⟨⟨2, .output, 0, .data 1⟩, ⟨1, .input, 0, .data 0⟩⟩]

lemma exists_carry : ∃ session m, (carryProgram.buildAll 3).run .empty = some (.ok (), session) ∧
    m ∈ session.design.modules ∧ m.connections = carryConnections ∧
    (∀ c ∈ m.connections, m.isDataPath c = true) ∧ m.tracedConnections?.isSome = true ∧
    m.isPass 2 = true := by
  have hrun : (((carryProgram.buildAll 3).run .empty).any fun result => result.1.toOption.isSome &&
      result.2.design.modules.any fun m => m.connections == carryConnections &&
        m.connections.all m.isDataPath && m.tracedConnections?.isSome && m.isPass 2) = true := by
    decide +kernel
  obtain ⟨session, m, hsession, hm, hcheck⟩ := Program.exists_module_of_any hrun
  simp only [Bool.and_eq_true, beq_iff_eq, Array.all_eq_true_iff_forall_mem] at hcheck
  obtain ⟨⟨⟨hconnections, hpaths⟩, htraced⟩, hpass⟩ := hcheck
  exact ⟨session, m, hsession, hm, hconnections, hpaths, htraced, hpass⟩

/-- The vector depends on the inverter, and the inverter on the vector. -/
lemma Built.carry_cycle (h : m.Built) (hconnections : m.connections = carryConnections)
    (hpaths : ∀ c ∈ m.connections, m.isDataPath c = true) :
    ∃ w, Relation.TransGen (m.DependsOn false) w w := by
  have hc₁ : ⟨⟨2, .output, 0, .data 0⟩, ⟨3, .input, 0, .data 0⟩⟩ ∈ m.connections := by
    simp [hconnections, carryConnections]
  have hc₂ : ⟨⟨3, .output, 0, .data 0⟩, ⟨2, .input, 0, .data 1⟩⟩ ∈ m.connections := by
    simp [hconnections, carryConnections]
  refine ⟨⟨3, .input, 0, .data 0⟩, ?_⟩
  have hdriver : Relation.TransGen (m.DependsOn false) ⟨3, .input, 0, .data 0⟩
      ⟨2, .output, 0, .data 0⟩ := .single (.driver hc₁ ⟨0, rfl⟩)
  have hvector := hdriver.tail (h.dependsOn_node hc₂ (hpaths _ hc₂) hc₁ (hpaths _ hc₁) rfl)
  have hgate := hvector.tail (DependsOn.driver hc₂ ⟨1, rfl⟩)
  exact hgate.tail (h.dependsOn_node hc₁ (hpaths _ hc₁) hc₂ (hpaths _ hc₂) rfl)

theorem combinationalLoop_iff_cycle_carry : ∃ session m,
    (carryProgram.buildAll 3).run .empty = some (.ok (), session) ∧ m ∈ session.design.modules ∧
    (∀ n ∈ m.nodes, 0 ≤ (fun _ : Node => (1 : Int)) n) ∧
    ∃ nodes, m.circuit? (fun _ => 1) "carry" = .error (.graph "carry" (.combinationalLoop nodes)) := by
  obtain ⟨session, m, hsession, hm, hconnections, hpaths, htraced, -⟩ := exists_carry
  have hdelay : ∀ n ∈ m.nodes, 0 ≤ (fun _ : Node => (1 : Int)) n := by simp
  refine ⟨session, m, hsession, hm, hdelay, ?_⟩
  apply (combinationalLoop_iff_cycle hsession hm hdelay "carry").mpr
  refine ⟨?_, (built_of_buildAll hsession hm).carry_cycle hconnections hpaths⟩
  rw [Ne, circuit?_eq_none_iff]
  exact Option.isSome_iff_ne_none.mp htraced

/-- The place of a wire on the way from the input to the output, leaf by leaf. -/
def carryRank (w : Wire) : Nat :=
  let place :=
    if w.node = 2 then if w.slot = .data 1 then 3 else 1
    else if w.node = 0 then 0 else if w.node = 3 then 2 else 4
  if w.side = .output then 2 * place + 1 else 2 * place

/-- There is a combinational loop though no wire depends on itself, if nodes that pass their input on
are taken leaf by leaf. -/
theorem combinationalLoop_without_leaf_cycle : ∃ session m,
    (carryProgram.buildAll 3).run .empty = some (.ok (), session) ∧ m ∈ session.design.modules ∧
    (∃ nodes, m.circuit? (fun _ => 1) "carry" =
      .error (.graph "carry" (.combinationalLoop nodes))) ∧
    ∀ w, ¬ Relation.TransGen (m.DependsOn true) w w := by
  obtain ⟨session, m, hsession, hm, hconnections, hpaths, htraced, hpass⟩ := exists_carry
  have hbuilt := built_of_buildAll hsession hm
  have hcircuit : m.circuit? (fun _ => 1) "carry" ≠ .ok none := by
    rw [Ne, circuit?_eq_none_iff]
    exact Option.isSome_iff_ne_none.mp htraced
  refine ⟨session, m, hsession, hm, ?_, ?_⟩
  · exact (hbuilt.circuit?_combinationalLoop_iff (by simp)).mpr
      ⟨hcircuit, hbuilt.carry_cycle hconnections hpaths⟩
  · apply not_cycle_of_rank carryRank
    intro w v hdepends
    cases hdepends with
    | driver hc =>
      rw [hconnections] at hc
      simp only [carryConnections, List.mem_toArray, List.mem_cons, List.not_mem_nil, or_false] at hc
      rcases hc with rfl | rfl | rfl | rfl <;> decide
    | node _ _ hnode _ hout hin _ _ hleaf =>
      unfold carryRank
      rw [if_pos hout, if_neg (by rw [hin]; decide), ← hnode]
      by_cases hvector : w.node = 2
      · have hslot := (hleaf rfl (hvector ▸ hpass)).2
        rw [hslot]
        exact Nat.lt_succ_self _
      · simp only [if_neg hvector]
        exact Nat.lt_succ_self _

end Module

end NetlistCompiler
