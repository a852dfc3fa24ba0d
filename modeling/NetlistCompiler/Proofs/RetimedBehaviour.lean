import NetlistCompiler.Proofs.Behaviour
import NetlistCompiler.Proofs.BuiltModules
import NetlistCompiler.Proofs.RoundTrip

/-!
# Retiming keeps the behaviour of modules

A legal retiming of a built module has the same behaviour up to latency: delaying every wire of a
node by the lag of the node turns the solutions of the module into those of the retimed one, one to
one. Along an edge the lags of both ends change the delay by as much as the number of registers
changes, a node commutes with a delay of all its wires, and a constant is not changed by it.
-/

namespace NetlistCompiler

universe u

variable {α : Type u}

/-- The same functions and constants for nodes under other numbers. -/
def Interpretation.relabel (I : Interpretation α) (f : Nat → Nat) : Interpretation α where
  apply id := I.apply (f id)
  constant w := I.constant { w with node := f w.node }
  apply_delay id := I.apply_delay (f id)

namespace Module

variable {m : Module}

/-! ### Built modules -/

lemma Built.registersHavePorts (h : m.Built) : m.RegistersHavePorts := by
  intro n hn hreg
  unfold Node.isRegister at hreg
  split at hreg
  · next p hkind =>
    obtain ⟨hinputs, houtputs⟩ := h.signatures n hn p hkind
    cases p with
    | register shape => exact ⟨shape, hkind, hinputs, houtputs⟩
    | _ => simp [Primitive.isRegister] at hreg
  · cases hreg

/-- No port of a register has a handshake. -/
def RegistersArePlain (m : Module) : Prop :=
  ∀ n ∈ m.nodes, n.isRegister = true → ∀ p ∈ n.inputs ++ n.outputs, p.kind = .signal

lemma RegistersArePlain.slot_eq (h : m.RegistersArePlain) {w : Wire} (hw : m.hasWire w = true)
    (hnode : m.isRegister w.node = true) : ∃ leaf, w.slot = .data leaf := by
  have hlt := node_lt_of_hasWire hw
  have hget : m.nodes[w.node]? = some m.nodes[w.node] := Array.getElem?_eq_getElem hlt
  have hplain := h m.nodes[w.node] (Array.getElem_mem hlt) (by simpa [isRegister, hget] using hnode)
  cases hport : (m.portsOf w.node w.side)[w.port]? with
  | none => simp [hasWire, port?, hport] at hw
  | some p =>
    have hp : p.kind = .signal := by
      apply hplain
      have hmem := List.mem_of_getElem? hport
      rw [portsOf, hget] at hmem
      cases hside : w.side with
      | input => exact List.mem_append_left _ (by simpa [Node.ports, hside] using hmem)
      | output => exact List.mem_append_right _ (by simpa [Node.ports, hside] using hmem)
    cases hslot : w.slot with
    | data leaf => exact ⟨leaf, rfl⟩
    | valid => simp [hasWire, port?, hport, hslot, hp] at hw
    | ready => simp [hasWire, port?, hport, hslot, hp] at hw

lemma Built.registersArePlain (h : m.Built) : m.RegistersArePlain := by
  intro n hn hreg p hp
  obtain ⟨shape, -, hinputs, houtputs⟩ := h.registersHavePorts n hn hreg
  rw [hinputs, houtputs] at hp
  simp only [List.cons_append, List.nil_append, List.mem_cons, List.not_mem_nil, or_false] at hp
  rcases hp with rfl | rfl
  · rfl
  · rfl

lemma Built.handshakesAvoidRegisters (h : m.Built) : m.HandshakesAvoidRegisters := by
  intro x hx hshake
  have hdriven : ∀ leaf, x.driven.slot ≠ .data leaf := by
    intro leaf hleaf
    rw [isHandshake_of_data hleaf] at hshake
    cases hshake
  constructor
  · by_contra hnode
    rw [Bool.not_eq_false] at hnode
    have hdata := h.registersArePlain.slot_eq (h.wired.hasDriver x hx) hnode
    obtain ⟨leaf, hleaf⟩ := (h.slots x hx).mp hdata
    exact hdriven leaf hleaf
  · by_contra hnode
    rw [Bool.not_eq_false] at hnode
    obtain ⟨leaf, hleaf⟩ := h.registersArePlain.slot_eq (h.wired.hasDriven x hx) hnode
    exact hdriven leaf hleaf

lemma Built.data_source (h : m.Built) {w source : Wire} {n : Nat} (htraces : m.Traces w source n)
    (hw : ∃ leaf, w.slot = .data leaf) : ∃ leaf, source.slot = .data leaf := by
  induction htraces with
  | here => exact hw
  | step _ _ hdriver _ ih =>
    apply ih
    exact (h.slots _ (h.wired.driver?_eq_some_iff.mp hdriver)).mpr ⟨_, rfl⟩

lemma Built.joinsCombinational (h : m.Built) {ts : List TracedConnection}
    (hts : m.tracedConnections? = some ts) : m.JoinsCombinational ts := by
  intro t ht
  have hlink := h.wired.isDataLink hts ht
  obtain ⟨x, hx, hpath, hxt⟩ := exists_connection (tracedConnections?_eq_some_iff.mp hts) ht
  have hdata : ∃ leaf, t.connection.driver.slot = .data leaf :=
    h.data_source hxt.traces ((h.slots x hx).mpr (isDataPath_iff.mp hpath).1)
  exact ⟨⟨hlink.hasDriver, hdata, hlink.driver_combinational⟩,
    ⟨hlink.hasDriven, hlink.data, hlink.driven_combinational⟩⟩

lemma KeepsNodes.registersHavePorts {r : Module} (h : m.KeepsNodes r) : r.RegistersHavePorts := by
  obtain ⟨ns, hnodes, hregisters⟩ := h
  intro n hn hreg
  rw [← Array.mem_toList_iff, hnodes] at hn
  rcases List.mem_append.mp hn with hn | hn
  · obtain ⟨id, hid, hget⟩ := List.mem_filterMap.mp hn
    have hnode := (Module.mem_combinationalNodes.mp hid).2
    simp [Module.isRegister, hget, hreg] at hnode
  · exact hregisters n hn

/-! ### Wires by rank -/

/-- The node that has a rank. -/
def origin (m : Module) (i : Nat) : Nat :=
  m.combinationalNodes.getD i 0

/-- The wire with its node, a rank, replaced by the node of that rank. -/
def originWire (m : Module) (w : Wire) : Wire :=
  { w with node := m.origin w.node }

lemma origin_rank {id : Nat} (h : id ∈ m.combinationalNodes) : m.origin (m.rank id) = id := by
  rw [origin, List.getD_eq_getElem?_getD, getElem?_rank h]
  rfl

lemma originWire_rankWire {w : Wire} (h : w.node ∈ m.combinationalNodes) :
    m.originWire (m.rankWire w) = w := by
  simp [originWire, rankWire, origin_rank h]

lemma IsCombinationalWire.node_mem {w : Wire} (h : m.IsCombinationalWire w) :
    w.node ∈ m.combinationalNodes :=
  mem_combinationalNodes.mpr ⟨node_lt_of_hasWire h.1, h.2.2⟩

lemma KeepsNodes.rankWire_combinational {r : Module} (h : m.KeepsNodes r) {w : Wire}
    (hw : m.IsCombinationalWire w) : r.IsCombinationalWire (m.rankWire w) :=
  ⟨(h.hasWire hw.node_mem).trans hw.1, hw.2.1, h.isRegister hw.node_mem⟩

/-- Every data wire of a node that is no register comes from the original module. -/
lemma KeepsNodes.exists_rankWire {r : Module} (h : m.KeepsNodes r) {w : Wire}
    (hw : r.IsCombinationalWire w) : ∃ v, m.IsCombinationalWire v ∧ m.rankWire v = w := by
  obtain ⟨id, hid, hrank⟩ := exists_rank_eq (h.mem_combinationalNodes.mp hw.node_mem)
  have heq : m.rankWire { w with node := id } = w := by simp [rankWire, hrank]
  refine ⟨{ w with node := id }, ⟨?_, hw.2.1, ?_⟩, heq⟩
  · rw [← h.hasWire hid, heq]
    exact hw.1
  · exact (Module.mem_combinationalNodes.mp hid).2

/-- The data wires of nodes that are no registers, before and after rebuilding. -/
def KeepsNodes.wireEquiv {r : Module} (h : m.KeepsNodes r) :
    m.CombinationalWire ≃ r.CombinationalWire where
  toFun w := ⟨m.rankWire w.1, h.rankWire_combinational w.2⟩
  invFun w := ⟨m.originWire w.1, by
    obtain ⟨v, hv, heq⟩ := h.exists_rankWire w.2
    rw [← heq, originWire_rankWire hv.node_mem]
    exact hv⟩
  left_inv w := Subtype.ext (originWire_rankWire w.2.node_mem)
  right_inv w := by
    obtain ⟨v, hv, heq⟩ := h.exists_rankWire w.2
    apply Subtype.ext
    change m.rankWire (m.originWire w.1) = w.1
    rw [← heq, originWire_rankWire hv.node_mem]

/-! ### Delays by lags -/

/-- The lag of the node of a wire. -/
def lagOf (m : Module) (lags : Array Int) (w : Wire) : Int :=
  lags.getD (m.rank w.node) 0

/-- Every wire of the original, delayed by the lag of its node, under its new number. -/
def shifted (m : Module) (lags : Array Int) (s : Wire → Signal α) (w : Wire) : Signal α :=
  (s (m.originWire w)).delay (m.lagOf lags (m.originWire w))

lemma shifted_rankWire {lags : Array Int} {s : Wire → Signal α} {w : Wire}
    (h : w.node ∈ m.combinationalNodes) :
    m.shifted lags s (m.rankWire w) = (s w).delay (m.lagOf lags w) := by
  rw [shifted, originWire_rankWire h]

/-- A traced connection with the registers that the lags leave on it. -/
def retimedTrace (m : Module) (lags : Array Int) (t : TracedConnection) : TracedConnection :=
  ⟨m.rankConnection t.connection, (t.registers + m.lagOf lags t.connection.driven -
    m.lagOf lags t.connection.driver).toNat⟩

/-- Traced connections of a retimed module: those of the original with other numbers of registers,
none of them negative. -/
structure RetimesTraces (m : Module) (lags : Array Int) (ts ts' : List TracedConnection) :
    Prop where
  mem_iff : ∀ t', t' ∈ ts' ↔ ∃ t ∈ ts, m.retimedTrace lags t = t'
  nonneg : ∀ t ∈ ts, 0 ≤ t.registers + m.lagOf lags t.connection.driven -
    m.lagOf lags t.connection.driver

lemma RetimesTraces.joinsCombinational {r : Module} (hnodes : m.KeepsNodes r) {lags : Array Int}
    {ts ts' : List TracedConnection} (h : m.RetimesTraces lags ts ts')
    (hjoins : m.JoinsCombinational ts) : r.JoinsCombinational ts' := by
  intro t' ht'
  obtain ⟨t, ht, rfl⟩ := (h.mem_iff t').mp ht'
  obtain ⟨hdriver, hdriven⟩ := hjoins t ht
  exact ⟨hnodes.rankWire_combinational hdriver, hnodes.rankWire_combinational hdriven⟩

/-- Along a connection, the lags of both ends make up for the change in registers. -/
lemma RetimesTraces.linked_iff {lags : Array Int} {ts ts' : List TracedConnection}
    (h : m.RetimesTraces lags ts ts') (hjoins : m.JoinsCombinational ts) {t : TracedConnection}
    (ht : t ∈ ts) {s : Wire → Signal α} :
    m.shifted lags s (m.retimedTrace lags t).connection.driven =
        (m.shifted lags s (m.retimedTrace lags t).connection.driver).delay
          (m.retimedTrace lags t).registers ↔
      s t.connection.driven = (s t.connection.driver).delay t.registers := by
  obtain ⟨hdriver, hdriven⟩ := hjoins t ht
  have hregisters : ((m.retimedTrace lags t).registers : Int) = t.registers +
      m.lagOf lags t.connection.driven - m.lagOf lags t.connection.driver :=
    Int.toNat_of_nonneg (h.nonneg t ht)
  have hright : (m.shifted lags s (m.retimedTrace lags t).connection.driver).delay
      (m.retimedTrace lags t).registers =
        ((s t.connection.driver).delay t.registers).delay (m.lagOf lags t.connection.driven) := by
    rw [hregisters, retimedTrace, rankConnection, shifted_rankWire hdriver.node_mem,
      Signal.delay_delay, Signal.delay_delay]
    congr 1
    omega
  rw [hright, retimedTrace, rankConnection, shifted_rankWire hdriven.node_mem]
  exact ⟨Signal.delay_inj, fun heq => by rw [heq]⟩

/-- A node commutes with the delay of all its wires. -/
lemma computed_shifted_iff {lags : Array Int} {I : Interpretation α} {s : Wire → Signal α}
    {id : Nat} (hid : id ∈ m.combinationalNodes) {n : Node} (l : Leaf n.outputs) :
    m.shifted lags s (l.wire (m.rank id) .output) =
        (I.relabel m.origin).apply (m.rank id) n
          (fun k => m.shifted lags s (k.wire (m.rank id) .input)) l ↔
      s (l.wire id .output) = I.apply id n (fun k => s (k.wire id .input)) l := by
  have hinputs : (fun k : Leaf n.inputs => m.shifted lags s (k.wire (m.rank id) .input)) =
      fun k => (s (k.wire id .input)).delay (lags.getD (m.rank id) 0) := by
    funext k
    exact shifted_rankWire (w := k.wire id .input) hid
  have houtput : m.shifted lags s (l.wire (m.rank id) .output) =
      (s (l.wire id .output)).delay (lags.getD (m.rank id) 0) :=
    shifted_rankWire (w := l.wire id .output) hid
  have happly : (I.relabel m.origin).apply (m.rank id) n = I.apply id n := by
    change I.apply (m.origin (m.rank id)) n = I.apply id n
    rw [origin_rank hid]
  rw [hinputs, houtput, happly, I.apply_delay]
  exact ⟨Signal.delay_inj, fun heq => by rw [heq]⟩

lemma undriven_shifted_iff {lags : Array Int} {I : Interpretation α} {s : Wire → Signal α}
    {w : Wire} (hw : w.node ∈ m.combinationalNodes) :
    (m.shifted lags s (m.rankWire w) =
        fun _ => (I.relabel m.origin).constant (m.rankWire w)) ↔
      s w = fun _ => I.constant w := by
  have hconstant : (I.relabel m.origin).constant (m.rankWire w) = I.constant w := by
    change I.constant (m.originWire (m.rankWire w)) = I.constant w
    rw [originWire_rankWire hw]
  rw [shifted_rankWire hw, hconstant]
  constructor
  · intro h
    exact Signal.delay_inj h
  · intro h
    rw [h]
    rfl

/-- Delaying by lags turns signals that obey the traced connections of a module into signals that
obey those of the retimed module, and back. -/
theorem RetimesTraces.solvesTraced_iff {r : Module} (hnodes : m.KeepsNodes r) {lags : Array Int}
    {ts ts' : List TracedConnection} (h : m.RetimesTraces lags ts ts')
    (hjoins : m.JoinsCombinational ts) {I : Interpretation α} {s : Wire → Signal α} :
    r.SolvesTraced (I.relabel m.origin) ts' (m.shifted lags s) ↔ m.SolvesTraced I ts s := by
  have hdriven : ∀ w, m.IsCombinationalWire w →
      ((∀ t' ∈ ts', t'.connection.driven ≠ m.rankWire w) ↔
        ∀ t ∈ ts, t.connection.driven ≠ w) := by
    intro w hw
    constructor
    · rintro hfree t ht rfl
      exact hfree _ ((h.mem_iff _).mpr ⟨t, ht, rfl⟩) rfl
    · intro hfree t' ht' heq
      obtain ⟨t, ht, rfl⟩ := (h.mem_iff t').mp ht'
      exact hfree t ht (rankWire_inj (hjoins t ht).2.node_mem hw.node_mem heq)
  constructor
  · intro hs
    refine ⟨?_, ?_, ?_⟩
    · intro t ht
      exact (h.linked_iff hjoins ht).mp (hs.linked _ ((h.mem_iff _).mpr ⟨t, ht, rfl⟩))
    · intro id n hget hnode hkind l
      have hid : id ∈ m.combinationalNodes :=
        (isCombinationalWire_leaf hget hnode .output l).node_mem
      apply (computed_shifted_iff hid l).mp
      exact hs.computed (m.rank id) n ((hnodes.getElem?_rank hid).trans hget) hnode hkind l
    · intro w hw hside hfree
      apply (undriven_shifted_iff hw.node_mem).mp
      exact hs.undriven _ (hnodes.rankWire_combinational hw) hside ((hdriven w hw).mpr hfree)
  · intro hs
    refine ⟨?_, ?_, ?_⟩
    · intro t' ht'
      obtain ⟨t, ht, rfl⟩ := (h.mem_iff t').mp ht'
      exact (h.linked_iff hjoins ht).mpr (hs.linked t ht)
    · intro i n hget hnode hkind l
      have hi := (isCombinationalWire_leaf hget hnode .output l).node_mem
      obtain ⟨id, hid, rfl⟩ := exists_rank_eq (hnodes.mem_combinationalNodes.mp hi)
      apply (computed_shifted_iff hid l).mpr
      exact hs.computed id n ((hnodes.getElem?_rank hid).symm.trans hget) hnode hkind l
    · intro w' hw' hside hfree
      obtain ⟨w, hw, rfl⟩ := hnodes.exists_rankWire hw'
      apply (undriven_shifted_iff hw.node_mem).mpr
      exact hs.undriven w hw hside ((hdriven w hw).mp hfree)

/-! ### Retimed modules -/

lemma HasRetimedGraph.retimesTraces {delay : Node → Int} {ts : List TracedConnection}
    {lags : Array Int} {c : ModuleCircuit} (h : m.HasRetimedGraph delay ts lags c) :
    m.RetimesTraces lags ts (c.graph.edges.toList.flatMap m.edgeTraces) := by
  rw [h.edges]
  refine ⟨?_, ?_⟩
  · intro t'
    rw [List.mem_flatMap]
    constructor
    · rintro ⟨e, he, ht'⟩
      obtain ⟨k, -, rfl⟩ := List.mem_map.mp he
      obtain ⟨x, hx, rfl⟩ := List.mem_map.mp ht'
      obtain ⟨t, ht, rfl, rfl⟩ := (mem_bundle (m := m)).mp hx
      exact ⟨t, ht, rfl⟩
    · rintro ⟨t, ht, rfl⟩
      have hk : t.key ∈ TracedConnection.keys ts := TracedConnection.mem_keys.mpr ⟨t, ht, rfl⟩
      have hx : t.connection ∈ (m.bundle ts t.key).value := mem_bundle.mpr ⟨t, ht, rfl, rfl⟩
      exact ⟨_, List.mem_map_of_mem hk, List.mem_map.mpr ⟨t.connection, hx, rfl⟩⟩
  · intro t ht
    exact h.weight_nonneg (TracedConnection.mem_keys.mpr ⟨t, ht, rfl⟩)

/-- Delaying by lags is a bijection between the solutions of a module and those of a retimed one. -/
theorem RetimesTraces.bijOn_solutions {r : Module} {lags : Array Int}
    {ts ts' : List TracedConnection} (h : m.RetimesTraces lags ts ts') (hm : m.Built)
    (hts : m.tracedConnections? = some ts) (hr : r.WellWired) (hnodes : m.KeepsNodes r)
    (hts' : r.tracedConnections? = some ts') (I : Interpretation α) :
    Set.BijOn (fun u w => (u (hnodes.wireEquiv.symm w)).delay
        (m.lagOf lags (hnodes.wireEquiv.symm w).1))
      (m.solutions I) (r.solutions (I.relabel m.origin)) := by
  have hjoins := hm.joinsCombinational hts
  have hjoins' := h.joinsCombinational hnodes hjoins
  have hiff : ∀ s : Wire → Signal α, (fun w : m.CombinationalWire => s w.1) ∈ m.solutions I ↔
      (fun w : r.CombinationalWire => m.shifted lags s w.1) ∈
        r.solutions (I.relabel m.origin) := by
    intro s
    rw [mem_solutions_iff hm.wired hm.registersHavePorts hts hjoins,
      mem_solutions_iff hr hnodes.registersHavePorts hts' hjoins',
      h.solvesTraced_iff hnodes hjoins]
  refine ⟨?_, ?_, ?_⟩
  · intro u hu
    obtain ⟨s, rfl⟩ := exists_extension I u
    exact (hiff s).mp hu
  · intro u _ v _ heq
    funext w
    have hw := congrFun heq (hnodes.wireEquiv w)
    simp only [Equiv.symm_apply_apply] at hw
    exact Signal.delay_inj hw
  · intro v hv
    obtain ⟨s', rfl⟩ := exists_extension (I.relabel m.origin) v
    -- undo the delays
    have hundo : (fun w : r.CombinationalWire => s' w.1) = fun w => m.shifted lags
        (fun w => (s' (m.rankWire w)).delay (-m.lagOf lags w)) w.1 := by
      funext w
      obtain ⟨v, hv, heq⟩ := hnodes.exists_rankWire w.2
      rw [← heq, shifted_rankWire hv.node_mem, Signal.delay_delay]
      simp
    rw [hundo] at hv ⊢
    exact ⟨_, (hiff _).mpr hv, rfl⟩

/-- Retiming preserves behaviour up to latency. For every module of an elaborated program that has
a circuit, and for every legal lags of it, the module rebuilt from the retimed circuit has the
solutions of the original, each data wire of a node delayed by the lag of the node, however the
nodes are interpreted. It can be rebuilt if every bundle that gets registers fits in a port. -/
theorem retime_preserves_solutions {p : Program} {depth : Nat} {session : Session}
    (hp : (p.buildAll depth).run .empty = some (.ok (), session)) {m : Module}
    (hm : m ∈ session.design.modules) {delay : Node → Int} {name : String} {c : ModuleCircuit}
    (hc : m.circuit? delay name = .ok (some c)) {lags : Array Int} (hlegal : c.isLegal lags = true) :
    ∃ c', c.retime lags = .ok c' ∧
      ((∀ e ∈ c.graph.edges, 0 < Circuit.registersUnder lags e →
        e.value.length ≤ Shape.maxWidth) → ∃ m', m.rebuild c' = .ok m') ∧
      ∀ m', m.rebuild c' = .ok m' → ∀ (α : Type u) (I : Interpretation α),
        ∃ ρ : m.CombinationalWire ≃ m'.CombinationalWire,
          (∀ w, (ρ w).1 = m.rankWire w.1) ∧
          Set.BijOn (fun u w => (u (ρ.symm w)).delay (m.lagOf lags (ρ.symm w).1))
            (m.solutions I) (m'.solutions (I.relabel m.origin)) := by
  have hbuilt := built_of_buildAll hp hm
  obtain ⟨ts, c', hts, hretime, hgraph, hfits'⟩ := hbuilt.wired.exists_retimed hc hlegal
  refine ⟨c', hretime, ?_, ?_⟩
  · intro hfits
    obtain ⟨r, hr, -⟩ := hbuilt.wired.rebuild_spec hbuilt.handshakesAvoidRegisters
      (hbuilt.wired.rebuildable hts hgraph (hfits' hfits))
    exact ⟨r, hr⟩
  · intro m' hm' α I
    obtain ⟨r, hr, hrebuilt⟩ := hbuilt.wired.rebuild_spec hbuilt.handshakesAvoidRegisters
      (hbuilt.wired.rebuildable hts hgraph fun e he => length_le_of_rebuild hm' he)
    obtain rfl : r = m' := Except.ok.inj (hr.symm.trans hm')
    refine ⟨hrebuilt.nodes.wireEquiv, fun _ => rfl, ?_⟩
    exact hgraph.retimesTraces.bijOn_solutions hbuilt hts hrebuilt.wired hrebuilt.nodes
      hrebuilt.traced I

/-- A wire that passes a register. -/
def holdProgram : Program :=
  ⟨[], [⟨"hold", ⟨[], []⟩, [⟨"x", .signal, .wire⟩], [⟨"y", .signal, .wire⟩],
    [.connection [[.reference "x" []], [.declared "held" (.function ⟨"register", [.wire], []⟩)],
      [.reference "y" []]]]⟩]⟩

theorem retime_preserves_solutions_hold : ∃ session m c,
    (holdProgram.buildAll 3).run .empty = some (.ok (), session) ∧ m ∈ session.design.modules ∧
    m.circuit? (fun _ => 1) "hold" = .ok (some c) ∧ c.isLegal #[0, 1] = true ∧
    ∃ c', c.retime #[0, 1] = .ok c' ∧ (∃ m', m.rebuild c' = .ok m') ∧
      ∀ m', m.rebuild c' = .ok m' → ∀ (α : Type) (I : Interpretation α),
        ∃ ρ : m.CombinationalWire ≃ m'.CombinationalWire,
          (∀ w, (ρ w).1 = m.rankWire w.1) ∧
          Set.BijOn (fun u w => (u (ρ.symm w)).delay (m.lagOf #[0, 1] (ρ.symm w).1))
            (m.solutions I) (m'.solutions (I.relabel m.origin)) := by
  have hrun : (((holdProgram.buildAll 3).run .empty).any fun result => result.1.toOption.isSome &&
      result.2.design.modules.any fun m => (m.circuit? (fun _ => 1) "hold").toOption.join.any fun c =>
        c.isLegal #[0, 1] && c.graph.edges.all fun e => e.value.length ≤ 1) = true := by
    decide +kernel
  obtain ⟨session, m, hsession, hm, hrun⟩ := Program.exists_module_of_any hrun
  obtain ⟨c, hsome, hchecks⟩ := (Option.any_eq_true _ _).mp hrun
  simp only [Bool.and_eq_true, Array.all_eq_true_iff_forall_mem, decide_eq_true_eq] at hchecks
  obtain ⟨hlegal, hwidth⟩ := hchecks
  have hc := eq_ok_of_toOption (Option.join_eq_some_iff.mp hsome)
  obtain ⟨c', hretime, hrebuild, hbij⟩ := retime_preserves_solutions hsession hm hc hlegal
  refine ⟨session, m, c, hsession, hm, hc, hlegal, c', hretime, hrebuild ?_, hbij⟩
  intro e he _
  exact (hwidth e he).trans (by decide)

end Module

end NetlistCompiler
