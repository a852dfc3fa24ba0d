import NetlistCompiler.Proofs.BodyLogic
import NetlistCompiler.Proofs.Memoization
import NetlistCompiler.Proofs.WireMatching

/-!
# Handshakes

Two stream ports that are connected as a whole share a handshake: the valid wire goes from the
output to the input and the ready wire comes back. In every module of a built design these are the
only connections of valid and ready wires, and along with them go the data wires of the two ports,
each to the one with the same access path.
-/

namespace NetlistCompiler

/-! ### Wires in pairs -/

namespace PortTree

section

variable {s t : Shape} {pairs : List (Nat × Nat)}

lemma agrees_of_pairLeaves? (hs : s.Distinct) (ht : t.Distinct)
    (h : (ofShape s).pairLeaves? (ofShape t) = some pairs) : s.agrees t = true := by
  have hiff := isSome_pairLeaves?_iff (formed_number hs 0) (formed_number ht 0)
  rw [shape_number, shape_number] at hiff
  exact hiff.mp (Option.isSome_of_eq_some h)

/-- All wires of the second shape are paired, each with the one on the same path. -/
lemma exists_sameWire_of_pairLeaves? (hs : s.Distinct) (ht : t.Distinct)
    (h : (ofShape s).pairLeaves? (ofShape t) = some pairs) {j : Nat} (hj : j < t.wireCount) :
    ∃ i, s.SameWire t i j ∧ (i, j) ∈ pairs := by
  have hmatches := matches_of_pairLeaves? (formed_number hs 0) (formed_number ht 0) h
  have hleaf : j ∈ (ofShape t).leaves := mem_leaves_number.mpr (by omega)
  obtain ⟨⟨i, _⟩, hx, rfl⟩ := List.mem_map.mp (hmatches.right.symm.subset hleaf)
  obtain ⟨path, hpath⟩ := hmatches.paths _ hx
  exact ⟨i, ⟨path, hpath⟩, hx⟩

end

end PortTree

/-! ### Modules with handshakes -/

/-- Two stream ports of agreeing shapes. Every data wire of the input port is driven by the wire of
the output port with the same access path. -/
structure Module.Streams (m : Module) (source sink : PortPlace) (q r : Port) : Prop where
  output : (m.portsOf source.node .output)[source.port]? = some q
  input : (m.portsOf sink.node .input)[sink.port]? = some r
  streams : q.kind = .stream ∧ r.kind = .stream
  agree : q.shape.agrees r.shape = true
  data : ∀ j < r.shape.wireCount, ∃ i, q.shape.SameWire r.shape i j ∧
    .data source sink i j ∈ m.connections

/-- Every connection joins data wires, or is one half of a handshake whose other half is there as
well. -/
structure Module.HalvesPaired (m : Module) : Prop where
  slots : ∀ c ∈ m.connections, (∃ source sink i j, c = .data source sink i j) ∨
    ∃ source sink, c = .valid source sink ∨ c = .ready source sink
  paired : ∀ source sink,
    .valid source sink ∈ m.connections ↔ .ready source sink ∈ m.connections

/-- The connections of valid and ready wires come in pairs, each between two connected stream ports,
and no port is in two pairs. -/
structure Module.HandshakesPaired (m : Module) : Prop extends m.HalvesPaired where
  streams : ∀ source sink, .valid source sink ∈ m.connections →
    ∃ q r, m.Streams source sink q r
  oneSink : ∀ source sink sink', .valid source sink ∈ m.connections →
    .valid source sink' ∈ m.connections → sink = sink'
  oneSource : ∀ source source' sink, .valid source sink ∈ m.connections →
    .valid source' sink ∈ m.connections → source = source'

/-- What the construction of a body maintains: two ports with a handshake are streams whose trees
have been connected. -/
structure Module.Handshaking (m : Module) : Prop extends m.HalvesPaired where
  connected : ∀ source sink, .valid source sink ∈ m.connections →
    ∃ q r pairs, (m.portsOf source.node .output)[source.port]? = some q ∧
      (m.portsOf sink.node .input)[sink.port]? = some r ∧ q.kind = .stream ∧ r.kind = .stream ∧
      (PortTree.ofShape q.shape).pairLeaves? (.ofShape r.shape) = some pairs ∧
      ∀ x ∈ pairs, .data source sink x.1 x.2 ∈ m.connections

namespace Module

variable {m : Module}

lemma handshaking_of_data
    (h : ∀ c ∈ m.connections, ∃ source sink i j, c = Connection.data source sink i j) :
    m.Handshaking := by
  have hvalid : ∀ source sink, .valid source sink ∉ m.connections := by
    intro source sink hmem
    obtain ⟨_, _, i, j, heq⟩ := h _ hmem
    simp [Connection.valid, Connection.data] at heq
  refine ⟨⟨fun c hc => .inl (h c hc), ?_⟩,
    fun source sink hmem => absurd hmem (hvalid source sink)⟩
  intro source sink
  refine iff_of_false (hvalid source sink) ?_
  intro hmem
  obtain ⟨_, _, i, j, heq⟩ := h _ hmem
  simp [Connection.ready, Connection.data] at heq

lemma Handshaking.grow {m' : Module} (h : m.Handshaking) (hgrows : m.Grows m')
    (hconnections : m'.connections = m.connections) : m'.Handshaking := by
  refine ⟨⟨?_, ?_⟩, ?_⟩
  · rw [hconnections]
    exact h.slots
  · rw [hconnections]
    exact h.paired
  · rw [hconnections]
    intro source sink hmem
    obtain ⟨q, r, pairs, hq, hr, hrest⟩ := h.connected source sink hmem
    exact ⟨q, r, pairs, hgrows.port? hq, hgrows.port? hr, hrest⟩

/-- The connections of two whole ends are a handshake exactly if these are streams. -/
lemma Handshaking.connect (h : m.Handshaking) {source sink : PortPlace} {pairs : List (Nat × Nat)}
    {handshake : Bool} (hstreams : handshake = true →
      ∃ q r, (m.portsOf source.node .output)[source.port]? = some q ∧
        (m.portsOf sink.node .input)[sink.port]? = some r ∧ q.kind = .stream ∧ r.kind = .stream ∧
        (PortTree.ofShape q.shape).pairLeaves? (.ofShape r.shape) = some pairs) :
    (m.extend [] (pairs.map (fun x => .data source sink x.1 x.2) ++
      if handshake then [.valid source sink, .ready source sink] else [])).Handshaking := by
  have hports : ∀ node side, (m.extend [] (pairs.map (fun x => .data source sink x.1 x.2) ++
      if handshake then [.valid source sink, .ready source sink] else [])).portsOf node side =
        m.portsOf node side := by
    intro node side
    simp [portsOf, extend]
  refine ⟨⟨?_, ?_⟩, ?_⟩
  · intro c hc
    rw [mem_extend, List.mem_append] at hc
    rcases hc with hc | hc | hc
    · exact h.slots c hc
    · obtain ⟨x, -, rfl⟩ := List.mem_map.mp hc
      exact .inl ⟨source, sink, x.1, x.2, rfl⟩
    · split at hc
      · simp only [List.mem_cons, List.not_mem_nil, or_false] at hc
        exact .inr ⟨source, sink, hc⟩
      · simp at hc
  · intro source' sink'
    rw [mem_extend, mem_extend, h.paired]
    refine or_congr_right ?_
    cases handshake <;>
      simp [Connection.valid, Connection.ready, Connection.data, and_comm, and_assoc]
  · intro source' sink' hmem
    simp only [hports, mem_extend]
    rw [mem_extend, List.mem_append] at hmem
    rcases hmem with hmem | hmem | hmem
    · obtain ⟨q, r, pairs', hq, hr, hqs, hrs, hpairs, hdata⟩ := h.connected source' sink' hmem
      exact ⟨q, r, pairs', hq, hr, hqs, hrs, hpairs, fun x hx => .inl (hdata x hx)⟩
    · simp [Connection.valid, Connection.data] at hmem
    · split at hmem
      · next hhandshake =>
        obtain ⟨q, r, hq, hr, hqs, hrs, hpairs⟩ := hstreams hhandshake
        obtain ⟨rfl, rfl⟩ : source' = source ∧ sink' = sink := by
          obtain ⟨node, port⟩ := source
          obtain ⟨node', port'⟩ := sink
          simpa [Connection.valid, Connection.ready, PortPlace.ext_iff, and_assoc] using hmem
        refine ⟨q, r, pairs, hq, hr, hqs, hrs, hpairs, fun x hx => .inr ?_⟩
        exact List.mem_append_left _ (List.mem_map_of_mem hx)
      · simp at hmem

/-- In a finished module, whose wires have one driver each, this means that all handshakes are in
pairs. -/
lemma Handshaking.handshakesPaired (h : m.Handshaking) (hwired : m.WellWired)
    (hdistinct : ∀ n ∈ m.nodes, ∀ side, ∀ q ∈ n.ports side, q.shape.Distinct) :
    m.HandshakesPaired := by
  have hport : ∀ {node side} {port : Nat} {q : Port}, (m.portsOf node side)[port]? = some q →
      q.shape.Distinct := by
    intro node side port q hq
    unfold portsOf at hq
    split at hq
    · next n hn => exact hdistinct n (Array.mem_of_getElem? hn) side q (List.mem_of_getElem? hq)
    · simp at hq
  refine ⟨h.toHalvesPaired, ?_, ?_, ?_⟩
  · intro source sink hmem
    obtain ⟨q, r, pairs, hq, hr, hqs, hrs, hpairs, hdata⟩ := h.connected source sink hmem
    have hagrees := PortTree.agrees_of_pairLeaves? (hport hq) (hport hr) hpairs
    refine ⟨q, r, hq, hr, ⟨hqs, hrs⟩, hagrees, ?_⟩
    intro j hj
    obtain ⟨i, hsame, hpair⟩ :=
      PortTree.exists_sameWire_of_pairLeaves? (hport hq) (hport hr) hpairs hj
    exact ⟨i, hsame, hdata _ hpair⟩
  · intro source sink sink' hmem hmem'
    -- the ready wire of the output port has one driver
    have heq := hwired.eq_of_driven_eq ((h.paired _ _).mp hmem) ((h.paired _ _).mp hmem') rfl
    simpa [Connection.ready, PortPlace.ext_iff] using heq
  · intro source source' sink hmem hmem'
    have heq := hwired.eq_of_driven_eq hmem hmem' rfl
    simpa [Connection.valid, PortPlace.ext_iff] using heq

lemma Handshaking.addNode {m : Module} (h : m.Handshaking) (n : Node) :
    (m.addNode n).Handshaking :=
  h.grow (m.grows_addNode n) rfl

end Module

/-! ### Built modules -/

namespace Construct

/-- No step of a construction makes one half of a handshake. -/
lemma rules_handshaking (c : BodyContext) :
    Rules c (fun _ => True) (fun _ _ => True) True (fun m _ => m.Handshaking) fun _ => True := by
  constructor
  case fails => exact fun _ _ _ => trivial
  case mention => exact fun _ _ _ hm => hm
  case stable => exact fun _ => Module.stable_true
  case instantiation => exact fun _ _ _ => trivial
  case interface => exact fun _ _ _ => trivial
  case pass => exact fun _ _ _ _ _ _ _ hm _ => ⟨hm.addNode _, trivial⟩
  case primitive => exact fun _ _ _ _ _ _ _ _ _ _ _ hm _ => ⟨hm.addNode _, trivial⟩
  case build =>
    exact fun _ s _ _ _ _ _ _ _ hm =>
      ((Elaborate.leads_true _ s).imp fun _ _ _ => ⟨trivial, fun _ => ⟨hm.addNode _, trivial⟩⟩)
  case connect =>
    intro source sink b s hb hends
    refine ((leads_connect c source sink).imp ?_).impError fun _ _ _ => trivial
    rintro _ b' _ ⟨-, pairs, hpairs, hb'⟩
    rw [hb']
    refine ⟨hb.connect ?_, Module.grows_of_nodes_eq (by simp [Module.extend]), trivial⟩
    intro hhandshake
    simp only [Bool.and_eq_true] at hhandshake
    obtain ⟨⟨⟨hwhole, hwhole'⟩, hstream⟩, hstream'⟩ := hhandshake
    obtain ⟨⟨q, hq, hqtree⟩, r, hr, hrtree⟩ := hends
    unfold isStream at hstream hstream'
    rw [hq] at hstream
    rw [hr] at hstream'
    refine ⟨q, r, hq, hr, by simpa using hstream, by simpa using hstream', ?_⟩
    rw [← hqtree hwhole, ← hrtree hwhole']
    exact hpairs

end Construct

/-- A module of a recorded design is made by steps that keep handshakes in pairs. -/
lemma Design.Recorded.handshaking {p : Program} {depth : Nat} {d : Design}
    (h : d.Recorded p depth) {k : Nat} {m : Module} (hm : d.modules[k]? = some m) :
    m.Handshaking := by
  obtain ⟨e, s₀, s₁, -, -, hrun, -, -⟩ := h k m hm
  obtain ⟨f, hcallee⟩ := Invocation.exists_callee_of_construct hrun
  cases f with
  | primitive op =>
    obtain ⟨q, -, -, hwraps⟩ := Invocation.exists_of_construct_primitive hcallee hrun
    apply Module.handshaking_of_data
    intro c hc
    rcases (hwraps.connections c).mp hc with ⟨k, x, -, leaf, -, rfl⟩ | ⟨k, x, -, leaf, -, rfl⟩
    · exact ⟨⟨k + 1, 0⟩, ⟨0, k⟩, leaf, leaf, rfl⟩
    · exact ⟨⟨0, k⟩, ⟨q.signature.inputs.length + k + 1, 0⟩, leaf, leaf, rfl⟩
  | function definition =>
    obtain ⟨b, σ, mentioned, t, -, -, hran, hmodule⟩ := Invocation.exists_of_construct hcallee hrun
    rw [hmodule]
    have hbody := (Construct.rules_handshaking (m.invocation.bodyContext p e b)).runs_function
      σ.inputs σ.outputs definition.statements
      (fun _ _ _ _ hm _ => hm.addNode _) (fun _ _ _ _ hm _ => hm.addNode _)
      (fun _ _ _ _ => trivial)
    exact ((hbody _ _ (Module.handshaking_of_data (by simp [Module.empty])) trivial).of_ran hran).1

/-- The shapes of the ports of a built module name every field once. -/
lemma Session.Elaborated.distinct_ports {p : Program} (hp : p.DistinctMembers) {depth : Nat}
    {s : Session} (hs : s.Elaborated p depth) {k : Nat} {m : Module}
    (hm : s.design.modules[k]? = some m) :
    ∀ n ∈ m.nodes, ∀ side, ∀ q ∈ n.ports side, q.shape.Distinct := by
  intro n hn side q hq
  have hinvocation := hs.sound.distinct m (Array.mem_of_getElem? hm)
  -- a module is alike to itself, and alike ports have distinct fields
  have htwin := hs.twin hp hs hm hm (Invocation.like_self hinvocation)
  obtain ⟨n', -, -, hresembles⟩ :=
    exists_mem_right_of_forall₂ htwin.nodes (Array.mem_toList_iff.mpr hn)
  obtain ⟨q', -, hlike⟩ := exists_mem_right_of_forall₂ (hresembles.ports side) hq
  exact hlike.shape.left

/-- In every module of a built design the valid and ready wires are connected in pairs. A pair joins
two stream ports of agreeing shapes, all data wires of the input port are driven by the wires of the
output port with the same access path, and no port is in two pairs. -/
theorem handshakesPaired_of_compilesTo {source : Surface.Program} {d : Design}
    (h : source.CompilesTo d) {m : Module} (hm : m ∈ d.modules) : m.HandshakesPaired := by
  obtain ⟨p, depth, s, hp, hrun, rfl⟩ := h
  have hunambiguous := Resolution.unambiguous_of_resolve hp
  have hs := ((leads_buildAll_elaborated hunambiguous depth).of_run hrun).1
  obtain ⟨k, hk⟩ := Array.getElem?_of_mem hm
  exact (hs.recorded.handshaking hk).handshakesPaired (hs.built m hm).wired
    (hs.distinct_ports hunambiguous.members hk)

/-- A stream that goes through a function, to a port with its fields in another order. -/
def Surface.Program.streaming : Surface.Program :=
  let x : Surface.Member := ⟨"x", .wire⟩
  let y : Surface.Member := ⟨"y", .access .wire (.item (.literal 2))⟩
  ⟨[⟨"forward", [], .record [x, y]⟩, ⟨"backward", [], .record [y, x]⟩],
    [⟨"through", [], [⟨"a", .name "forward", .stream⟩], [⟨"b", .name "backward", .stream⟩],
      [.connect [.lone (.name "a"), .lone (.name "b")]]⟩]⟩

theorem handshakesPaired_of_compilesTo_streaming :
    ∃ d, Surface.Program.streaming.CompilesTo d ∧ ∃ m ∈ d.modules,
      .valid ⟨0, 0⟩ ⟨1, 0⟩ ∈ m.connections ∧ .data ⟨0, 0⟩ ⟨1, 0⟩ 0 2 ∈ m.connections ∧
        m.HandshakesPaired := by
  let p := Surface.Program.streaming.resolve.toOption.getD ⟨[], []⟩
  have hp : Surface.Program.streaming.resolve = .ok p := rfl
  obtain ⟨session, hrun, hcheck⟩ : ∃ session,
      (p.buildAll 3).run .empty = some (.ok (), session) ∧
      (session.design.modules.any fun m =>
        decide (.valid ⟨0, 0⟩ ⟨1, 0⟩ ∈ m.connections ∧ .data ⟨0, 0⟩ ⟨1, 0⟩ 0 2 ∈ m.connections)) =
        true := by
    apply Program.exists_session_of_any
    decide +kernel
  obtain ⟨k, hk, hm⟩ := Array.any_eq_true.mp hcheck
  obtain ⟨hvalid, hdata⟩ := of_decide_eq_true hm
  have hd : Surface.Program.streaming.CompilesTo session.design := ⟨p, 3, session, hp, hrun, rfl⟩
  exact ⟨_, hd, _, Array.getElem_mem hk, hvalid, hdata,
    handshakesPaired_of_compilesTo hd (Array.getElem_mem hk)⟩

end NetlistCompiler
